import CSecureBuild.Harness.Renaming
import CSecureBuild.PyLib.Languages

/-!
How many names `prompt_code` draws: one for every occurrence of a word with a label, not one for every
such word, so that it ends if and only if there are as many names as occurrences.
-/

namespace CSecureBuild.Harness.FreshNames

open CSecureBuild.PyLib.Cells CSecureBuild.PyLib.Regex CSecureBuild.PyLib.Text CSecureBuild.PyLib.Words
open CSecureBuild.Harness.Scrub CSecureBuild.Harness.Patterns CSecureBuild.Harness.Renaming

/-! ### The names that can be drawn -/

/-- Three syllables, by their numbers. -/
abbrev Triple := Fin SYLLABLES.length × Fin SYLLABLES.length × Fin SYLLABLES.length

/-- The name of three syllables. -/
def spell (t : Triple) : List Char := SYLLABLES.get t.1 ++ SYLLABLES.get t.2.1 ++ SYLLABLES.get t.2.2

/-- The triples whose names do not match `LEAK_WORDS`. -/
def admissible (u : Unicode) : Finset Triple :=
  Finset.univ.filter fun t => ((LEAK_WORDS u).search (spell t)).isNone = true

/-- A generator that keeps producing every triple. -/
def Fair (choice : ℕ → Fin SYLLABLES.length) : Prop :=
  ∀ (t : Triple) (n : ℕ), ∃ m ≥ n, (choice (3 * m), choice (3 * m + 1), choice (3 * m + 2)) = t

lemma spell_injective : Function.Injective spell := by
  have hlength : ∀ k : Fin SYLLABLES.length, (SYLLABLES.get k).length = 2 := by decide
  have hget : Function.Injective SYLLABLES.get := List.nodup_iff_injective_get.mp (by decide)
  rintro ⟨i, j, k⟩ ⟨i', j', k'⟩ h
  simp only [spell] at h
  obtain ⟨hij, hk⟩ := List.append_inj h (by simp only [List.length_append, hlength])
  obtain ⟨hi, hj⟩ := List.append_inj hij (by simp only [hlength])
  rw [hget hi, hget hj, hget hk]

/-! ### One name -/

section

variable {u : Unicode} {choice : ℕ → Fin SYLLABLES.length} {tries : ℕ} {s s' : Naming} {name : List Char}

lemma neutralName_more (h : neutralName u choice tries s = some (s', name)) (more : ℕ) :
    neutralName u choice (tries + more) s = some (s', name) := by
  induction tries generalizing s with
  | zero => cases h
  | succ tries ih =>
    rw [Nat.add_right_comm]
    rw [neutralName] at h ⊢
    simp only at h ⊢
    split_ifs at h ⊢ with hname
    · exact h
    · exact ih h

/-- A name is drawn in three calls, and is that of an admissible triple. -/
lemma neutralName_drawn (h : neutralName u choice tries s = some (s', name)) {m : ℕ}
    (hm : s.drawn = 3 * m) : (∃ m', s'.drawn = 3 * m') ∧ ∃ t ∈ admissible u, spell t = name := by
  induction tries generalizing s m with
  | zero => cases h
  | succ tries ih =>
    rw [neutralName] at h
    simp only at h
    split_ifs at h with hname
    · cases h
      refine ⟨⟨m + 1, by simp only; omega⟩, (choice s.drawn, choice (s.drawn + 1), choice (s.drawn + 2)), ?_, rfl⟩
      exact Finset.mem_filter.mpr ⟨Finset.mem_univ _, hname.2⟩
    · exact ih (m := m + 1) h (by simp only; omega)

/-- **A name is found** if the generator is to produce one that is not used. -/
lemma neutralName_found {m : ℕ} (hm : s.drawn = 3 * m) {t : Triple} (ht : t ∈ admissible u)
    (hused : spell t ∉ s.used) {k : ℕ}
    (hk : (choice (3 * (m + k)), choice (3 * (m + k) + 1), choice (3 * (m + k) + 2)) = t) :
    (neutralName u choice (k + 1) s).isSome = true := by
  induction k generalizing s m with
  | zero =>
    rw [neutralName]
    simp only
    rw [if_pos]
    · rfl
    · rw [hm, show SYLLABLES.get (choice (3 * m)) ++ SYLLABLES.get (choice (3 * m + 1)) ++
        SYLLABLES.get (choice (3 * m + 2)) = spell t from by rw [← hk]; rfl]
      exact ⟨hused, (Finset.mem_filter.mp ht).2⟩
  | succ k ih =>
    rw [neutralName]
    simp only
    split_ifs
    · rfl
    · refine ih (s := { s with drawn := s.drawn + 3 }) (m := m + 1) (by simp only; omega) hused ?_
      rw [Nat.add_right_comm, Nat.add_assoc]
      exact hk

/-! ### Some names -/

/-- What the generator has done behind `n` names. -/
structure Draws (u : Unicode) (n : ℕ) (s : Naming) : Prop where
  whole : ∃ m, s.drawn = 3 * m
  count : s.used.length = n
  fresh : s.used.Nodup
  spelled : ∀ name ∈ s.used, ∃ t ∈ admissible u, spell t = name

lemma draws_of_drawn {n : ℕ} (h : drawn u choice tries n = some s) : Draws u n s := by
  induction n generalizing s with
  | zero =>
    cases h
    exact ⟨⟨0, rfl⟩, rfl, List.nodup_nil, by simp⟩
  | succ n ih =>
    obtain ⟨s₀, hs₀, h⟩ := Option.bind_eq_some_iff.mp h
    obtain ⟨⟨s₁, name⟩, hname, rfl⟩ := Option.map_eq_some_iff.mp h
    obtain ⟨⟨m, hm⟩, hcount, hfresh, hspelled⟩ := ih hs₀
    obtain ⟨hused, hnew, -, -⟩ := neutralName_spec hname
    obtain ⟨hwhole, t, ht, hspell⟩ := neutralName_drawn hname hm
    refine ⟨hwhole, ?_, ?_, ?_⟩
    · rw [hused, List.length_append, hcount]
      rfl
    · rw [hused]
      exact List.nodup_append.mpr ⟨hfresh, List.nodup_singleton name, fun v hv w hw => by
        rw [List.mem_singleton.mp hw]
        exact fun e => hnew (e ▸ hv)⟩
    · rw [hused]
      intro v hv
      rcases List.mem_append.mp hv with hv | hv
      · exact hspelled v hv
      · exact ⟨t, ht, hspell.trans (List.mem_singleton.mp hv).symm⟩

/-- The names that were used are spelled by as many triples. -/
lemma Draws.le_card {n : ℕ} (h : Draws u n s) : n ≤ (admissible u).card := by
  rw [← h.count, ← List.toFinset_card_of_nodup h.fresh]
  refine (Finset.card_le_card (t := (admissible u).image spell) fun name hname => ?_).trans
    Finset.card_image_le
  obtain ⟨t, ht, hspell⟩ := h.spelled name (List.mem_toFinset.mp hname)
  exact Finset.mem_image.mpr ⟨t, ht, hspell⟩

lemma Draws.exists_new {n : ℕ} (h : Draws u n s) (hn : n < (admissible u).card) :
    ∃ t ∈ admissible u, spell t ∉ s.used := by
  have hcard : s.used.toFinset.card < ((admissible u).image spell).card := by
    rw [Finset.card_image_of_injective _ spell_injective, List.toFinset_card_of_nodup h.fresh, h.count]
    exact hn
  obtain ⟨name, hname, hnew⟩ := Finset.exists_mem_notMem_of_card_lt_card hcard
  obtain ⟨t, ht, rfl⟩ := Finset.mem_image.mp hname
  exact ⟨t, ht, fun hmem => hnew (List.mem_toFinset.mpr hmem)⟩

lemma drawn_more {n : ℕ} (h : drawn u choice tries n = some s) (more : ℕ) :
    drawn u choice (tries + more) n = some s := by
  induction n generalizing s with
  | zero => exact h
  | succ n ih =>
    obtain ⟨s₀, hs₀, h⟩ := Option.bind_eq_some_iff.mp h
    obtain ⟨⟨s₁, name⟩, hname, rfl⟩ := Option.map_eq_some_iff.mp h
    rw [drawn, ih hs₀, Option.bind_some, neutralName_more hname]
    rfl

/-- **A fair generator** gives as many names as there are admissible triples, and no more. -/
theorem exists_drawn_iff (hfair : Fair choice) (n : ℕ) :
    (∃ tries, (drawn u choice tries n).isSome = true) ↔ n ≤ (admissible u).card := by
  constructor
  · rintro ⟨tries, h⟩
    obtain ⟨s, hs⟩ := Option.isSome_iff_exists.mp h
    exact (draws_of_drawn hs).le_card
  · intro hn
    induction n with
    | zero => exact ⟨0, rfl⟩
    | succ n ih =>
      obtain ⟨tries, h⟩ := ih (Nat.le_of_succ_le hn)
      obtain ⟨s, hs⟩ := Option.isSome_iff_exists.mp h
      have hdraws := draws_of_drawn hs
      obtain ⟨m, hm⟩ := hdraws.whole
      obtain ⟨t, ht, hnew⟩ := hdraws.exists_new hn
      obtain ⟨m', hle, hm'⟩ := hfair t m
      rw [show m' = m + (m' - m) by omega] at hm'
      obtain ⟨⟨s', name⟩, hname⟩ := Option.isSome_iff_exists.mp (neutralName_found hm ht hnew hm')
      refine ⟨tries + (m' - m + 1), ?_⟩
      rw [drawn, drawn_more hs, Option.bind_some, Nat.add_comm tries, neutralName_more hname]
      rfl

end

/-! ### The rename step -/

/-- The matches among some pieces. -/
def matchesOf : List (Piece Char) → List (Match Char)
  | [] => []
  | .keep _ :: ps => matchesOf ps
  | .hit m :: ps => m :: matchesOf ps

/-- The matches that the rename step of `prompt_code` goes through. -/
def renamedMatches (u : Unicode) (code : List Char) : List (Match Char) :=
  matchesOf ((NAME_WITH_LABEL u).pieces (strip u code))

/-- The words with a label in the text that the rename step gets, in order. -/
def labelWords (u : Unicode) (code : List Char) : List (List Char) :=
  labelled (toks u.word (strip u code))

section

variable (u : Unicode) (choice : ℕ → Fin SYLLABLES.length) (tries : ℕ)

/-- What the rename step used and gave out for some matches. -/
def namingAfter (ms : List (Match Char)) : Option Naming :=
  ms.foldl (fun s m => (renameNeutral u choice tries s m).1) (some ⟨0, [], []⟩)

end

lemma rewrite_state {σ : Type} (f : σ → Match Char → σ × List Char) (s : σ) (ps : List (Piece Char)) :
    (rewrite f s ps).1 = (matchesOf ps).foldl (fun s m => (f s m).1) s := by
  induction ps generalizing s with
  | nil => rfl
  | cons p ps ih =>
    cases p with
    | keep c => exact ih s
    | hit m => exact ih (f s m).1

lemma length_renamedMatches (u : Unicode) (code : List Char) :
    (renamedMatches u code).length = (labelWords u code).length := by
  -- a substitution that counts, by matches and by words
  have hstate := congrArg Prod.fst (name_subState u (fun (k : ℕ) _ => (k + 1, [])) 0 (strip u code))
  rw [Re.subState, rewrite_state] at hstate
  have hmatches : ∀ (ms : List (Match Char)) (k : ℕ), ms.foldl (fun k _ => k + 1) k = k + ms.length := by
    intro ms
    induction ms with
    | nil => exact fun _ => rfl
    | cons m ms ih =>
      intro k
      rw [List.foldl_cons, ih, List.length_cons]
      omega
  have hwords : ∀ (ts : List Tok) (k : ℕ),
      (renameToks (fun (k : ℕ) _ => (k + 1, [])) k ts).1 = k + (labelled ts).length := by
    intro ts
    induction ts with
    | nil => exact fun _ => rfl
    | cons t ts ih =>
      intro k
      cases t with
      | sep c => exact ih k
      | word w =>
        rw [renameToks, labelled]
        split_ifs
        · simp only [ih, List.length_cons]
          omega
        · exact ih k
  rw [hmatches, hwords, Nat.zero_add, Nat.zero_add] at hstate
  exact hstate

section

variable {u : Unicode} {choice : ℕ → Fin SYLLABLES.length} {tries : ℕ}

/-- **Every match draws a name**, whether the word has one already or not. -/
theorem namingAfter_drawn (ms : List (Match Char)) :
    (namingAfter u choice tries ms).map (fun s => { s with names := [] }) = drawn u choice tries ms.length := by
  induction ms using List.reverseRecOn with
  | nil => rfl
  | append_singleton ms m ih =>
    rw [namingAfter, List.foldl_append, ← namingAfter, List.length_append, List.length_singleton, drawn,
      ← ih, List.foldl_cons, List.foldl_nil]
    cases namingAfter u choice tries ms with
    | none => rfl
    | some s =>
      rw [renameNeutral, Option.bind_some, Option.map_some, Option.bind_some, neutralName_names s []]
      cases neutralName u choice tries s <;> rfl

lemma isSome_namingAfter (ms : List (Match Char)) :
    (namingAfter u choice tries ms).isSome = (drawn u choice tries ms.length).isSome := by
  rw [← namingAfter_drawn, Option.isSome_map]

lemma draws_namingAfter {ms : List (Match Char)} {s : Naming} (h : namingAfter u choice tries ms = some s) :
    Draws u ms.length { s with names := [] } := by
  have hdrawn : drawn u choice tries ms.length = some { s with names := [] } := by
    rw [← namingAfter_drawn, h]
    rfl
  exact draws_of_drawn hdrawn

lemma isSome_promptCode (preamble func : List (List Char)) :
    (promptCode u choice tries preamble func).isSome =
      (drawn u choice tries (labelWords u (joined preamble func)).length).isSome := by
  rw [promptCode, Option.isSome_map, promptText, Option.isSome_map, Re.subState, rewrite_state]
  rw [← length_renamedMatches]
  exact isSome_namingAfter _

/-- **`prompt_code` ends** if and only if there are as many admissible triples as occurrences of words with
a label. That it draws no more names than there are such words, and so ends whenever these are fewer than
the triples, holds if and only if none occurs twice, or they are no fewer than the triples. -/
theorem prompt_code_ends_iff (hfair : Fair choice) (u : Unicode) (preamble func : List (List Char)) :
    ((∃ tries, (promptCode u choice tries preamble func).isSome = true) ↔
      (labelWords u (joined preamble func)).length ≤ (admissible u).card) ∧
    (((∀ tries k s, namingAfter u choice tries ((renamedMatches u (joined preamble func)).take k) = some s →
        s.used.length ≤ (labelWords u (joined preamble func)).dedup.length) ∧
      ((labelWords u (joined preamble func)).dedup.length < (admissible u).card →
        ∃ tries, (promptCode u choice tries preamble func).isSome = true)) ↔
      (labelWords u (joined preamble func)).Nodup ∨
        (admissible u).card ≤ (labelWords u (joined preamble func)).dedup.length) := by
  have hends : (∃ tries, (promptCode u choice tries preamble func).isSome = true) ↔
      (labelWords u (joined preamble func)).length ≤ (admissible u).card := by
    simp only [isSome_promptCode]
    exact exists_drawn_iff hfair _
  refine ⟨hends, ?_⟩
  rw [hends]
  have hlength := length_renamedMatches u (joined preamble func)
  generalize labelWords u (joined preamble func) = words at hlength ⊢
  generalize renamedMatches u (joined preamble func) = ms at hlength ⊢
  constructor
  · rintro ⟨hconsumed, hlast⟩
    by_contra hno
    obtain ⟨hrepeats, hfew⟩ := not_or.mp hno
    have hlt : words.dedup.length < words.length := by
      refine lt_of_le_of_ne (List.dedup_sublist words).length_le fun heq => hrepeats ?_
      rw [← (List.dedup_sublist words).eq_of_length heq]
      exact List.nodup_dedup words
    -- one name more than there are words is drawn before the matches or the triples are used up
    obtain ⟨tries, hdrawn⟩ := (exists_drawn_iff (u := u) hfair (words.dedup.length + 1)).mpr (by omega)
    have htake : (ms.take (words.dedup.length + 1)).length = words.dedup.length + 1 := by
      rw [List.length_take]
      omega
    rw [← htake, ← isSome_namingAfter] at hdrawn
    obtain ⟨s, hs⟩ := Option.isSome_iff_exists.mp hdrawn
    have hcount := (draws_namingAfter hs).count
    have hle := hconsumed tries _ s hs
    rw [htake] at hcount
    simp only at hcount
    omega
  · intro hcond
    refine ⟨fun tries k s hs => ?_, fun hfew => ?_⟩
    · have hdraws := draws_namingAfter hs
      have hcount : s.used.length = (ms.take k).length := hdraws.count
      have hcard := hdraws.le_card
      rw [List.length_take] at hcount hcard
      rcases hcond with hnodup | hmany
      · rw [hnodup.dedup]
        omega
      · omega
    · rcases hcond with hnodup | hmany
      · rw [hnodup.dedup] at hfew
        omega
      · omega

end

/-! ### A text that needs more names than there are -/

/-- A generator that goes through the triples again and again. -/
def counting (n : ℕ) : Fin SYLLABLES.length :=
  ⟨n / 3 / 20 ^ (n % 3) % SYLLABLES.length, Nat.mod_lt _ (by decide)⟩

lemma fair_counting : Fair counting := by
  rintro ⟨⟨i, hi⟩, ⟨j, hj⟩, ⟨k, hk⟩⟩ n
  have hlength : SYLLABLES.length = 20 := rfl
  refine ⟨i + 20 * j + 400 * k + 8000 * n, by omega, ?_⟩
  simp only [counting, Prod.mk.injEq, Fin.mk.injEq, hlength]
  refine ⟨?_, ?_, ?_⟩
  · rw [show 3 * (i + 20 * j + 400 * k + 8000 * n) % 3 = 0 by omega]
    omega
  · rw [show (3 * (i + 20 * j + 400 * k + 8000 * n) + 1) % 3 = 1 by omega]
    omega
  · rw [show (3 * (i + 20 * j + 400 * k + 8000 * n) + 2) % 3 = 2 by omega]
    omega

/-- A text with one word, on a line of its own. -/
theorem prompt_code_ends_iff_small :
    (∃ tries, (promptCode ascii counting tries [] ["bad;\n".toList]).isSome = true) ↔
      (labelWords ascii (joined [] ["bad;\n".toList])).length ≤ (admissible ascii).card :=
  (prompt_code_ends_iff fair_counting ascii [] ["bad;\n".toList]).1

lemma comment_has_slash : ∀ w ∈ COMMENT.lang, '/' ∈ w := by
  intro w hw
  rcases hw with hw | hw
  · obtain ⟨a, ha, b, -, rfl⟩ := mem_lang_seq.mp hw
    rw [mem_lang_lit.mp ha]
    simp
  · obtain ⟨a, ha, b, -, rfl⟩ := mem_lang_seq.mp hw
    rw [mem_lang_lit.mp ha]
    simp

lemma directive_has_hash : ∀ w ∈ PREPROC_LABEL.lang, '#' ∈ w := by
  intro w hw
  obtain ⟨a, -, w₁, hw₁, rfl⟩ := mem_lang_seq.mp hw
  obtain ⟨b, -, w₂, hw₂, rfl⟩ := mem_lang_seq.mp hw₁
  obtain ⟨w₃, ⟨c, hc, rfl⟩, d, -, rfl⟩ := mem_lang_seq.mp hw₂
  rw [show c = '#' from of_decide_eq_true hc]
  simp

lemma string_has_quote : ∀ w ∈ STRING.lang, '"' ∈ w := by
  intro w hw
  obtain ⟨a, -, w₁, hw₁, rfl⟩ := mem_lang_seq.mp hw
  obtain ⟨w₂, ⟨c, hc, rfl⟩, d, -, rfl⟩ := mem_lang_seq.mp hw₁
  rw [show c = '"' from of_decide_eq_true hc]
  simp

lemma find_eq_none {c : Char} {pattern code : List Char} (hc : c ∈ pattern) (h : c ∉ code) :
    find pattern code = none := by
  induction code with
  | nil => exact if_neg (List.ne_nil_of_mem hc)
  | cons d rest ih =>
    rw [find, if_neg, ih fun hmem => h (List.mem_cons_of_mem d hmem)]
    · rfl
    · rw [erase_char, List.isPrefixOf_iff_prefix]
      exact fun hpre => h (hpre.subset hc)

lemma strip_plain {u : Unicode} {code : List Char} (hslash : '/' ∉ code) (hhash : '#' ∉ code)
    (hquote : '"' ∉ code) : strip u code = code := by
  have hfind : find "*/".toList code = none := find_eq_none (c := '/') (by decide) hslash
  have hopened : dropOpened code = code := by
    unfold dropOpened
    rw [hfind]
  have hnot : ∀ {c : Char}, c ∉ code → c ∉ erase code := fun h => by rwa [erase_char]
  unfold strip
  rw [hopened, dropComments, sub_of_search_none (search_eq_none_of_notMem comment_has_slash (hnot hslash)),
    dropDirectives, sub_of_search_none (search_eq_none_of_notMem directive_has_hash (hnot hhash)),
    blankStrings, sub_of_search_none (search_eq_none_of_notMem string_has_quote (hnot hquote))]

/-- The same word on many lines. -/
def lines (n : ℕ) : List (List Char) := List.replicate n "bad\n".toList

lemma mem_lines {n : ℕ} {c : Char} (h : c ∈ joined [] (lines n)) : c ∈ "bad\n".toList := by
  rcases List.mem_cons.mp h with rfl | h
  · decide
  · obtain ⟨l, hl, hc⟩ := List.mem_flatten.mp h
    rwa [List.eq_of_mem_replicate hl] at hc

lemma labelWords_lines (n : ℕ) : labelWords ascii (joined [] (lines n)) = List.replicate n "bad".toList := by
  have hnewline : ascii.word '\n' = false := by decide
  have htoks : labelled (toks ascii.word (lines n).flatten) = List.replicate n "bad".toList := by
    induction n with
    | zero => rfl
    | succ n ih =>
      have hline : (lines (n + 1)).flatten = "bad".toList ++ '\n' :: (lines n).flatten := by
        rw [lines, List.replicate_succ, List.flatten_cons]
        rfl
      have hbad : ∀ c ∈ "bad".toList, ascii.word c = true := List.all_eq_true.mp (by decide)
      rw [hline, toks_word (by decide) hbad (open_toks fun c hc => by cases hc; exact hnewline),
        toks_sep hnewline, labelled, if_pos (by decide), labelled, ih, List.replicate_succ]
  have hclean : ∀ c, c ∉ "bad\n".toList → c ∉ joined [] (lines n) := fun c hc h => hc (mem_lines h)
  rw [labelWords, strip_plain (hclean '/' (by decide)) (hclean '#' (by decide)) (hclean '"' (by decide))]
  have hjoined : joined [] (lines n) = '\n' :: (lines n).flatten := rfl
  rw [hjoined, toks_sep hnewline, labelled, htoks]

/-- **One word that occurs too often** keeps `prompt_code` from ending, although there are more names than
words. -/
theorem prompt_code_hangs :
    (labelWords ascii (joined [] (lines 8001))).dedup.length < (admissible ascii).card ∧
      ∀ tries, promptCode ascii counting tries [] (lines 8001) = none := by
  have hcard : (admissible ascii).card ≤ 8000 :=
    (Finset.card_filter_le _ _).trans_eq (by simp [SYLLABLES])
  constructor
  · rw [labelWords_lines, List.replicate_dedup (by decide), List.length_singleton]
    let k : Fin SYLLABLES.length := ⟨0, by decide⟩
    let l : Fin SYLLABLES.length := ⟨1, by decide⟩
    refine Finset.one_lt_card.mpr ⟨(k, k, k), ?_, (k, k, l), ?_, by decide⟩
    all_goals exact Finset.mem_filter.mpr ⟨Finset.mem_univ _, by decide +kernel⟩
  · intro tries
    refine Option.not_isSome_iff_eq_none.mp fun hsome => ?_
    rw [isSome_promptCode, labelWords_lines, List.length_replicate] at hsome
    have hle := (exists_drawn_iff (u := ascii) fair_counting 8001).mp ⟨tries, hsome⟩
    omega

end CSecureBuild.Harness.FreshNames
