import CSecureBuild.Harness.Rescan

/-!
What `scrub` and `prompt_code` make of a text does not depend on its labels. A text and its counterpart differ
in their comments, in the names with a label, in the literals with a label word and in the directives with a
label (`Counterpart`); the names that are given out depend on which words are equal and not on what they are
(`renameToks_simulates`), so that both texts become the same one.
-/

namespace CSecureBuild.Harness.Noninterference

open CSecureBuild.PyLib.Cells CSecureBuild.PyLib.Regex CSecureBuild.PyLib.Text CSecureBuild.PyLib.Words
open CSecureBuild.Harness.Scrub CSecureBuild.Harness.Patterns CSecureBuild.Harness.Linewise
open CSecureBuild.Harness.Reading CSecureBuild.Harness.Renaming CSecureBuild.Harness.Rescan

variable {u : Unicode} {ρ : List Char → List Char}

/-! ### Counterparts -/

/-- The texts of two literals that show the same: they are equal, or both have a label word and they are as
long as each other. -/
def SameBody (u : Unicode) (body body' : List Char) : Prop :=
  body = body' ∨ ¬ Clean u body ∧ ¬ Clean u body' ∧ body.length = body'.length

/-- A name with a label becomes a name with a label. -/
def Relabels (u : Unicode) (ρ : List Char → List Char) (w : List Char) : Prop :=
  HasLabel w → IsWord u (ρ w) ∧ HasLabel (ρ w)

/-- A line without comments, and the same with other labels: names with a label have other names, and literals
with a label word have other texts. -/
inductive Relabelled (u : Unicode) (ρ : List Char → List Char) : List Char → List Char → Prop where
  | nil : Relabelled u ρ [] []
  | sep {c : Char} {x x' : List Char} (hc : u.word c = false) (hquote : c ≠ '"') (tail : Relabelled u ρ x x') :
      Relabelled u ρ (c :: x) (c :: x')
  | word {w x x' : List Char} (hw : IsWord u w) (hx : ∀ c ∈ x.head?, u.word c = false)
      (hname : Relabels u ρ w) (tail : Relabelled u ρ x x') : Relabelled u ρ (w ++ x) (newName ρ w ++ x')
  | dead {x x' : List Char} (hdead : closes false x = false) (hdead' : closes false x' = false)
      (tail : Relabelled u ρ x x') : Relabelled u ρ ('"' :: x) ('"' :: x')
  | literal {body body' x x' : List Char} (hbody : Units '"' body) (hbody' : Units '"' body')
      (hsame : SameBody u body body') (tail : Relabelled u ρ x x') :
      Relabelled u ρ ('"' :: (body ++ '"' :: x)) ('"' :: (body' ++ '"' :: x'))

/-- A line and its counterpart: both are directives with a label, or neither is. -/
def LineCounterpart (u : Unicode) (ρ : List Char → List Char) (line line' : List Char) : Prop :=
  Directive line ∧ Directive line' ∨ ¬ Directive line ∧ ¬ Directive line' ∧ Relabelled u ρ line line'

/-- A text and its counterpart: without their comments, of which the newlines stay, they have counterparts for
lines. -/
def Counterpart (u : Unicode) (ρ : List Char → List Char) (code code' : List Char) : Prop :=
  ∃ seen seen', Uncommented (dropOpened code) seen ∧ Uncommented (dropOpened code') seen' ∧
    List.Forall₂ (LineCounterpart u ρ) (lines seen) (lines seen')

/-! ### What is left before the renaming -/

/-- The names with a label of a text become names with a label. -/
def Apt (u : Unicode) (ρ : List Char → List Char) (text : List Char) : Prop :=
  ∀ w, .word w ∈ toks u.word text → Relabels u ρ w

variable {x x' : List Char}

lemma apt_nil : Apt u ρ [] := fun _ hw => by cases hw

lemma apt_append {c : Char} (hc : u.word c = false) (x y : List Char) :
    Apt u ρ (x ++ c :: y) ↔ Apt u ρ x ∧ Apt u ρ y := by
  unfold Apt
  rw [toks_append hc]
  constructor
  · exact fun h => ⟨fun w hw => h w (List.mem_append_left _ hw), fun w hw =>
      h w (List.mem_append_right _ (List.mem_cons_of_mem _ hw))⟩
  · rintro ⟨hx, hy⟩ w hw
    rcases List.mem_append.mp hw with hw | hw
    · exact hx w hw
    · exact hy w ((List.mem_cons.mp hw).resolve_left fun h => by cases h)

lemma apt_of_unlabelled {text : List Char} (h : Unlabelled u text) : Apt u ρ text :=
  fun w hw hlabel => absurd hlabel (h w hw)

lemma newline_not_word : u.word '\n' = false := not_word (by simp)

lemma quote_not_word : u.word '"' = false := not_word (by simp)

lemma apt_of_lines {text : List Char} (h : ∀ line ∈ lines text, Apt u ρ line) : Apt u ρ text := by
  induction text using line_induction with
  | last line hline => exact h line (by rw [lines_last hline]; exact List.mem_singleton_self _)
  | step line rest hline ih =>
    rw [lines_line hline] at h
    exact (apt_append newline_not_word line rest).mpr
      ⟨h line List.mem_cons_self, ih fun l hl => h l (List.mem_cons_of_mem _ hl)⟩

lemma renameText_intercalate (ls : List (List Char)) :
    renameText u ρ (['\n'].intercalate ls) = ['\n'].intercalate (ls.map (renameText u ρ)) := by
  induction ls with
  | nil => rfl
  | cons line ls ih =>
    cases ls with
    | nil => simp
    | cons next ls =>
      rw [List.intercalate_cons_cons, List.append_assoc, List.singleton_append,
        renameText_append newline_not_word, ih]
      simp [List.intercalate_cons_cons]

lemma renameText_sep {c : Char} (hc : u.word c = false) (text : List Char) :
    renameText u ρ (c :: text) = c :: renameText u ρ text :=
  renameText_append hc [] text

lemma apt_sep {c : Char} (hc : u.word c = false) {text : List Char} (h : Apt u ρ text) : Apt u ρ (c :: text) :=
  (apt_append hc [] text).mpr ⟨apt_nil, h⟩

lemma shownBody_same {body body' : List Char} (h : SameBody u body body') :
    shownBody u body = shownBody u body' := by
  rcases h with rfl | ⟨hbody, hbody', hlen⟩
  · rfl
  · unfold shownBody
    rw [if_neg hbody, if_neg hbody', hlen]

lemma isWord_newName {w : List Char} (hw : IsWord u w) (hname : Relabels u ρ w) : IsWord u (newName ρ w) := by
  unfold newName
  split_ifs with hlabel
  · exact (hname hlabel).1
  · exact hw

lemma notMem_quote {w : List Char} (hw : IsWord u w) : '"' ∉ w := fun hmem =>
  hw.ne hmem quote_not_word rfl

lemma renameText_word {w : List Char} (hw : IsWord u w) (hx : ∀ c ∈ x.head?, u.word c = false) :
    renameText u ρ (w ++ x) = newName ρ w ++ renameText u ρ x := by
  unfold renameText
  rw [toks_word hw.1 hw.2 (open_toks hx)]
  rfl

lemma apt_word {w : List Char} (hw : IsWord u w) (hx : ∀ c ∈ x.head?, u.word c = false)
    (hname : Relabels u ρ w) (h : Apt u ρ x) : Apt u ρ (w ++ x) := by
  intro v hv
  rw [toks_word hw.1 hw.2 (open_toks hx)] at hv
  rcases List.mem_cons.mp hv with heq | hv
  · cases heq
    exact hname
  · exact h v hv

/-- **What a line and its counterpart show of their literals** differs in names with a label. -/
lemma Relabelled.overwritten (h : Relabelled u ρ x x') :
    ∃ out, Overwritten u x out ∧ Overwritten u x' (renameText u ρ out) ∧ Apt u ρ out ∧
      ((∀ c ∈ x.head?, u.word c = false) → ∀ c ∈ out.head?, u.word c = false) := by
  induction h with
  | nil => exact ⟨[], .nil, .nil, apt_nil, id⟩
  | @sep c x x' hc hquote tail ih =>
    obtain ⟨out, hout, hout', hapt, -⟩ := ih
    refine ⟨c :: out, .char hquote hout, ?_, apt_sep hc hapt, by simp [hc]⟩
    rw [renameText_sep hc]
    exact .char hquote hout'
  | @word w x x' hw hx hname tail ih =>
    obtain ⟨out, hout, hout', hapt, hhead⟩ := ih
    refine ⟨w ++ out, .append (notMem_quote hw) hout, ?_, apt_word hw (hhead hx) hname hapt, ?_⟩
    · rw [renameText_word hw (hhead hx)]
      exact .append (notMem_quote (isWord_newName hw hname)) hout'
    · obtain ⟨c, w, rfl⟩ := List.exists_cons_of_ne_nil hw.1
      intro h
      simpa using h
  | @dead x x' hdead hdead' tail ih =>
    obtain ⟨out, hout, hout', hapt, -⟩ := ih
    refine ⟨'"' :: out, .dead hdead hout, ?_, apt_sep quote_not_word hapt, by simp [quote_not_word]⟩
    rw [renameText_sep quote_not_word]
    exact .dead hdead' hout'
  | @literal body body' x x' hbody hbody' hsame tail ih =>
    obtain ⟨out, hout, hout', hapt, -⟩ := ih
    -- what a literal shows has no label word, so that the renaming leaves it
    have hplain : Unlabelled u (shownBody u body) := .of_clean (shownBody_spec hbody).2
    refine ⟨'"' :: (shownBody u body ++ '"' :: out), .literal hbody hout, ?_, ?_, by simp [quote_not_word]⟩
    · rw [renameText_sep quote_not_word, renameText_append quote_not_word, renameText_of_unlabelled hplain,
        shownBody_same hsame]
      exact .literal hbody' hout'
    · exact apt_sep quote_not_word
        ((apt_append quote_not_word _ _).mpr ⟨apt_of_unlabelled hplain, hapt⟩)

/-- **What is left of a line and its counterpart** differs in names with a label. -/
lemma LineCounterpart.shown {line line' : List Char} (h : LineCounterpart u ρ line line') :
    blankStrings u (dropLine line') = renameText u ρ (blankStrings u (dropLine line)) ∧
      Apt u ρ (blankStrings u (dropLine line)) := by
  unfold dropLine
  rcases h with ⟨h, h'⟩ | ⟨h, h', hrel⟩
  · rw [if_pos h, if_pos h', ← overwritten_iff.mp (Overwritten.nil (u := u))]
    exact ⟨rfl, apt_nil⟩
  · obtain ⟨out, hout, hout', hapt, -⟩ := hrel.overwritten
    rw [if_neg h, if_neg h', ← overwritten_iff.mp hout, ← overwritten_iff.mp hout']
    exact ⟨rfl, hapt⟩

/-- **What is left of a text and its counterpart before the renaming** differs in names with a label. -/
theorem Counterpart.strip_eq {code code' : List Char} (h : Counterpart u ρ code code') :
    strip u code' = renameText u ρ (strip u code) ∧ Apt u ρ (strip u code) := by
  obtain ⟨seen, seen', hseen, hseen', hlines⟩ := h
  have hstrip : ∀ {code seen}, Uncommented (dropOpened code) seen →
      lines (strip u code) = (lines seen).map fun line => blankStrings u (dropLine line) := by
    intro code seen hseen
    unfold strip
    rw [← uncommented_iff.mp hseen, lines_blankStrings, lines_dropDirectives, List.map_map]
    rfl
  have hall : ∀ a b : List (List Char), List.Forall₂ (LineCounterpart u ρ) a b →
      b.map (fun line => blankStrings u (dropLine line)) =
        (a.map fun line => blankStrings u (dropLine line)).map (renameText u ρ) ∧
      ∀ line ∈ a.map (fun line => blankStrings u (dropLine line)), Apt u ρ line := by
    intro a b hab
    induction hab with
    | nil => simp
    | cons hline _ ih =>
      simp only [List.map_cons, ih.1, hline.shown.1, List.forall_mem_cons, true_and]
      exact ⟨hline.shown.2, ih.2⟩
  obtain ⟨hsame, hapt⟩ := hall _ _ hlines
  rw [← hstrip hseen] at hsame hapt
  rw [← hstrip hseen'] at hsame
  refine ⟨?_, apt_of_lines hapt⟩
  have hjoin : ∀ text, ['\n'].intercalate (lines text) = text := fun text => List.intercalate_splitOn '\n'
  rw [← hjoin (strip u code'), hsame, ← renameText_intercalate, hjoin]

/-! ### The renaming -/

/-- The keys of a dictionary, relabelled. -/
def relabelKeys (ρ : List Char → List Char) (names : Names) : Names := names.map fun p => (ρ p.1, p.2)

section

variable {S : Set (List Char)} {names : Names} {w : List Char}

lemma lookup_relabelKeys (hinj : Set.InjOn ρ S) (hkeys : ∀ p ∈ names, p.1 ∈ S) (hw : w ∈ S) :
    (relabelKeys ρ names).lookup (ρ w) = names.lookup w := by
  induction names with
  | nil => rfl
  | cons p names ih =>
    obtain ⟨hp, hkeys⟩ := List.forall_mem_cons.mp hkeys
    have hsame : (ρ w == ρ p.1) = (w == p.1) := by
      rw [Bool.eq_iff_iff, beq_iff_eq, beq_iff_eq]
      exact hinj.eq_iff hw hp
    have := ih hkeys
    unfold relabelKeys at this ⊢
    rw [List.map_cons, List.lookup_cons, List.lookup_cons, hsame, this]

/-- **Names are given out** by which words are equal. -/
lemma setdefault_relabelKeys (hinj : Set.InjOn ρ S) (hkeys : ∀ p ∈ names, p.1 ∈ S) (hw : w ∈ S)
    (value : List Char) :
    setdefault (relabelKeys ρ names) (ρ w) value =
        (relabelKeys ρ (setdefault names w value).1, (setdefault names w value).2) ∧
      ∀ p ∈ (setdefault names w value).1, p.1 ∈ S := by
  unfold setdefault
  rw [lookup_relabelKeys hinj hkeys hw]
  cases names.lookup w with
  | some name => exact ⟨rfl, hkeys⟩
  | none =>
    refine ⟨by simp [relabelKeys], fun p hp => ?_⟩
    rcases List.mem_append.mp hp with hp | hp
    · exact hkeys p hp
    · rw [List.mem_singleton.mp hp]
      exact hw

end

/-- **The renaming of relabelled tokens** follows that of the tokens, if each step does. -/
lemma renameToks_simulates {σ : Type} {f : σ → Match Char → σ × List Char} {R : σ → σ → Prop}
    {S : Set (List Char)} (hlabel : ∀ w ∈ S, HasLabel (ρ w))
    (hstep : ∀ s s' w, w ∈ S → R s s' →
      R (f s ⟨w, []⟩).1 (f s' ⟨ρ w, []⟩).1 ∧ (f s ⟨w, []⟩).2 = (f s' ⟨ρ w, []⟩).2)
    {ts : List Tok} (hts : ∀ w ∈ labelled ts, w ∈ S) {s s' : σ} (h : R s s') :
    R (renameToks f s ts).1 (renameToks f s' (ts.map (renamed ρ))).1 ∧
      (renameToks f s ts).2 = (renameToks f s' (ts.map (renamed ρ))).2 := by
  induction ts generalizing s s' with
  | nil => exact ⟨h, rfl⟩
  | cons t ts ih =>
    cases t with
    | sep c =>
      obtain ⟨hR, hout⟩ := ih hts h
      simp only [List.map_cons, renamed, renameToks]
      exact ⟨hR, by rw [hout]⟩
    | word w =>
      by_cases hw : HasLabel w
      · simp only [labelled, if_pos hw, List.forall_mem_cons] at hts
        obtain ⟨hR, hname⟩ := hstep s s' w hts.1 h
        obtain ⟨hR, hout⟩ := ih hts.2 hR
        simp only [List.map_cons, renamed, newName, renameToks, if_pos hw, if_pos (hlabel w hts.1)]
        exact ⟨hR, by rw [hname, hout]⟩
      · simp only [labelled, if_neg hw] at hts
        obtain ⟨hR, hout⟩ := ih hts h
        simp only [List.map_cons, renamed, newName, renameToks, if_neg hw]
        exact ⟨hR, by rw [hout]⟩

/-- The same names were given out, to relabelled words. -/
def SameNames (ρ : List Char → List Char) (S : Set (List Char)) (names names' : Names) : Prop :=
  names' = relabelKeys ρ names ∧ ∀ p ∈ names, p.1 ∈ S

lemma rename_simulates {S : Set (List Char)} (hinj : Set.InjOn ρ S) {names names' : Names} {w : List Char}
    (hw : w ∈ S) (h : SameNames ρ S names names') :
    SameNames ρ S (rename names (⟨w, []⟩ : Match Char)).1 (rename names' (⟨ρ w, []⟩ : Match Char)).1 ∧
      (rename names (⟨w, []⟩ : Match Char)).2 = (rename names' (⟨ρ w, []⟩ : Match Char)).2 := by
  obtain ⟨rfl, hkeys⟩ := h
  obtain ⟨hset, hkeys'⟩ := setdefault_relabelKeys hinj hkeys hw (idName (names.length + 1))
  rw [rename_word, rename_word]
  have hlen : (relabelKeys ρ names).length = names.length := List.length_map _
  rw [hlen, hset]
  exact ⟨⟨rfl, hkeys'⟩, rfl⟩

/-- The state of `prompt_code` with other keys. -/
def relabelNaming (ρ : List Char → List Char) (s : Naming) : Naming := { s with names := relabelKeys ρ s.names }

/-- As many names were drawn, and the same were given out to relabelled words. -/
def SameDraws (ρ : List Char → List Char) (S : Set (List Char)) (s s' : Option Naming) : Prop :=
  s' = s.map (relabelNaming ρ) ∧ ∀ n, s = some n → ∀ p ∈ n.names, p.1 ∈ S

lemma renameNeutral_simulates {S : Set (List Char)} (hinj : Set.InjOn ρ S) {choice : ℕ → Fin SYLLABLES.length}
    {tries : ℕ} {s s' : Option Naming} {w : List Char} (hw : w ∈ S) (h : SameDraws ρ S s s') :
    SameDraws ρ S (renameNeutral u choice tries s (⟨w, []⟩ : Match Char)).1
        (renameNeutral u choice tries s' (⟨ρ w, []⟩ : Match Char)).1 ∧
      (renameNeutral u choice tries s (⟨w, []⟩ : Match Char)).2 =
        (renameNeutral u choice tries s' (⟨ρ w, []⟩ : Match Char)).2 := by
  obtain ⟨rfl, hkeys⟩ := h
  cases s with
  | none => exact ⟨⟨rfl, fun n hn => by cases hn⟩, rfl⟩
  | some n =>
    have hkeys := hkeys n rfl
    unfold renameNeutral
    rw [Option.map_some, Option.bind_some, Option.bind_some, relabelNaming,
      neutralName_names n (relabelKeys ρ n.names)]
    cases hfresh : neutralName u choice tries n with
    | none => exact ⟨⟨rfl, fun n hn => by cases hn⟩, rfl⟩
    | some p =>
      obtain ⟨n', fresh⟩ := p
      have hnames := (neutralName_spec hfresh).2.2.2
      obtain ⟨hset, hkeys'⟩ := setdefault_relabelKeys hinj hkeys hw fresh
      unfold SameDraws
      simp only [Option.map_some, erase_char, write_char, hset, hnames, relabelNaming, true_and]
      refine ⟨fun n hn => ?_, trivial⟩
      cases hn
      exact hkeys'

/-! ### Noninterference -/

/-- The names with a label in what is left of a text before the renaming. -/
def labelNames (u : Unicode) (code : List Char) : Set (List Char) :=
  {w | .word w ∈ toks u.word (strip u code) ∧ HasLabel w}

/-- Two texts show the same: `scrub` and `prompt_code` do the same with both. -/
def ShowSame (u : Unicode) (code code' : List Char) : Prop :=
  scrub u code' = scrub u code ∧
    ∀ (choice : ℕ → Fin SYLLABLES.length) (tries : ℕ) (preamble func preamble' func' : List (List Char)),
      joined preamble func = code → joined preamble' func' = code' →
        promptCode u choice tries preamble' func' = promptCode u choice tries preamble func

/-- Counterparts show the same if each name with a label has one name. -/
theorem Counterpart.showSame {code code' : List Char} (h : Counterpart u ρ code code')
    (hinj : Set.InjOn ρ (labelNames u code)) : ShowSame u code code' := by
  obtain ⟨hstrip, hapt⟩ := h.strip_eq
  have htoks : toks u.word (strip u code') = (toks u.word (strip u code)).map (renamed ρ) := by
    rw [hstrip]
    exact toks_render (valid_renamed (valid_toks _) fun w hw hlabel => (hapt w hw hlabel).1)
  have hlabels : ∀ w ∈ labelNames u code, HasLabel (ρ w) := fun w hw => (hapt w hw.1 hw.2).2
  have hmem : ∀ w ∈ labelled (toks u.word (strip u code)), w ∈ labelNames u code := fun _ => mem_labelled.mp
  have hscrubbed : scrubbed u code' = scrubbed u code := by
    unfold scrubbed
    rw [name_subState, name_subState, htoks]
    have hstart : SameNames ρ (labelNames u code) [] [] := ⟨rfl, by simp⟩
    simp only [← (renameToks_simulates hlabels (fun _ _ _ => rename_simulates hinj) hmem hstart).2]
  refine ⟨by unfold scrub; rw [hscrubbed], ?_⟩
  rintro choice tries preamble func preamble' func' rfl rfl
  have hprompt : promptText u choice tries (joined preamble' func') =
      promptText u choice tries (joined preamble func) := by
    unfold promptText
    rw [name_subState, name_subState, htoks]
    have hstart : SameDraws ρ (labelNames u (joined preamble func)) (some ⟨0, [], []⟩) (some ⟨0, [], []⟩) :=
      ⟨rfl, fun n hn => by cases hn; simp⟩
    obtain ⟨⟨hstate, -⟩, hout⟩ := renameToks_simulates (f := renameNeutral u choice tries) hlabels
      (fun _ _ _ => renameNeutral_simulates hinj) hmem hstart
    simp only [← hout, hstate]
    cases (renameToks (renameNeutral u choice tries) (some ⟨0, [], []⟩)
      (toks u.word (strip u (joined preamble func)))).1 <;> rfl
  unfold promptCode
  rw [hprompt]

/-- **`scrub` and `prompt_code` do not show the labels**: a text and its counterpart, with one name for each
name with a label, become the same text, or `scrub` refuses both. -/
theorem label_noninterference (u : Unicode) {ρ : List Char → List Char} {code code' : List Char}
    (h : Counterpart u ρ code code') (hinj : Set.InjOn ρ (labelNames u code)) :
    scrub u code' = scrub u code ∧
      ∀ (choice : ℕ → Fin SYLLABLES.length) (tries : ℕ) (preamble func preamble' func' : List (List Char)),
        joined preamble func = code → joined preamble' func' = code' →
          promptCode u choice tries preamble' func' = promptCode u choice tries preamble func :=
  h.showSame hinj

/-- A flawed line and a fixed one become the same. -/
theorem label_noninterference_line :
    scrub ascii "goodbad(\"good\"); /* x */".toList = scrub ascii "bad(\"flaw\"); // FLAW".toList := by
  have hname : newName ("good".toList ++ ·) "bad".toList = "goodbad".toList := by decide
  have hrel : Relabelled ascii ("good".toList ++ ·) "bad(\"flaw\"); ".toList "goodbad(\"good\"); ".toList := by
    have hword : IsWord ascii "bad".toList := isWord_ascii (by decide) (by simp)
    have hnew : Relabels ascii ("good".toList ++ ·) "bad".toList := fun _ =>
      ⟨isWord_ascii (by decide) (by simp), by decide⟩
    have hunits : Units '"' "flaw".toList ∧ Units '"' "good".toList := by
      constructor <;> repeat' constructor
      all_goals decide
    have hsame : SameBody ascii "flaw".toList "good".toList := .inr ⟨by decide +kernel, by decide +kernel, rfl⟩
    have htail : Relabelled ascii ("good".toList ++ ·) "(\"flaw\"); ".toList "(\"good\"); ".toList :=
      .sep (by decide) (by decide) (.literal hunits.1 hunits.2 hsame
        (.sep (by decide) (by decide) (.sep (by decide) (by decide) (.sep (by decide) (by decide) .nil))))
    have := Relabelled.word hword (by simp [ascii]) hnew htail
    rwa [hname] at this
  have hseen : dropComments (dropOpened "bad(\"flaw\"); // FLAW".toList) = "bad(\"flaw\"); ".toList ∧
      dropComments (dropOpened "goodbad(\"good\"); /* x */".toList) = "goodbad(\"good\"); ".toList := by
    decide +kernel
  exact (label_noninterference ascii
    ⟨_, _, uncommented_iff.mpr hseen.1.symm, uncommented_iff.mpr hseen.2.symm,
      .cons (.inr ⟨by decide +kernel, by decide +kernel, hrel⟩) .nil⟩ fun _ _ _ _ => List.append_cancel_left).1

end CSecureBuild.Harness.Noninterference
