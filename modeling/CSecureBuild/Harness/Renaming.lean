import CSecureBuild.Harness.Patterns

/-!
The renaming at the end of `scrub` and of `prompt_code`, as a function on the words of a text: a word with
a label gets the name that was given out at its first occurrence, the others stay. The names are apart
from each other; whether they are apart from the words that stay is what the text decides
(`renaming_injective_iff`).
-/

namespace CSecureBuild.Harness.Renaming

open CSecureBuild.PyLib.Cells CSecureBuild.PyLib.Regex CSecureBuild.PyLib.Text CSecureBuild.PyLib.Words
open CSecureBuild.Harness.Scrub CSecureBuild.Harness.Patterns

/-! ### Renaming as a function -/

/-- The words with a label, in order. -/
def labelled : List Tok → List (List Char)
  | [] => []
  | .sep _ :: ts => labelled ts
  | .word w :: ts => if HasLabel w then w :: labelled ts else labelled ts

/-- A word, with another name if it has a label. -/
def newName (name : List Char → List Char) (w : List Char) : List Char :=
  if HasLabel w then name w else w

/-- A token, with another name if it has a label. -/
def renamed (name : List Char → List Char) : Tok → Tok
  | .sep c => .sep c
  | .word w => .word (newName name w)

lemma mem_labelled {ts : List Tok} {w : List Char} :
    w ∈ labelled ts ↔ .word w ∈ ts ∧ HasLabel w := by
  induction ts with
  | nil => simp [labelled]
  | cons t ts ih =>
    cases t with
    | sep c => simp [labelled, ih]
    | word v =>
      rw [labelled]
      split_ifs with h
      · rw [List.mem_cons, List.mem_cons, ih, Tok.word.injEq]
        constructor
        · rintro (rfl | ⟨h₁, h₂⟩)
          · exact ⟨Or.inl rfl, h⟩
          · exact ⟨Or.inr h₁, h₂⟩
        · rintro ⟨h₁ | h₁, h₂⟩
          · exact Or.inl h₁
          · exact Or.inr ⟨h₁, h₂⟩
      · rw [List.mem_cons, ih, Tok.word.injEq]
        constructor
        · rintro ⟨h₁, h₂⟩
          exact ⟨Or.inr h₁, h₂⟩
        · rintro ⟨rfl | h₁, h₂⟩
          · exact absurd h₂ h
          · exact ⟨h₁, h₂⟩

section

variable {σ : Type} {f : σ → Match Char → σ × List Char} {good : σ → Prop}

lemma good_of_renameToks (hbad : ∀ s m, good (f s m).1 → good s) {s : σ} {ts : List Tok}
    (h : good (renameToks f s ts).1) : good s := by
  induction ts generalizing s with
  | nil => exact h
  | cons t ts ih =>
    cases t with
    | sep c => exact ih h
    | word w =>
      rw [renameToks] at h
      split_ifs at h
      · exact hbad s _ (ih h)
      · exact ih h

/-- **The renaming is a function of the words**, if the name of a word depends on what was read up to its
first occurrence. -/
theorem renameToks_eq (f : σ → Match Char → σ × List Char) (good : σ → Prop)
    (inv : List (List Char) → σ → Prop) (name : List (List Char) → List Char → List Char)
    (hbad : ∀ s m, good (f s m).1 → good s)
    (hstep : ∀ past s w, inv past s → good (f s ⟨w, []⟩).1 →
      inv (past ++ [w]) (f s ⟨w, []⟩).1 ∧ (f s ⟨w, []⟩).2 = name (past ++ [w]) w)
    (hname : ∀ past more w, w ∈ past → name (past ++ more) w = name past w)
    {past : List (List Char)} {s : σ} {ts : List Tok} (h : inv past s)
    (hgood : good (renameToks f s ts).1) :
    (renameToks f s ts).2 = ts.map (renamed (name (past ++ labelled ts))) ∧
      inv (past ++ labelled ts) (renameToks f s ts).1 := by
  induction ts generalizing past s with
  | nil => exact ⟨rfl, by rwa [labelled, List.append_nil]⟩
  | cons t ts ih =>
    cases t with
    | sep c =>
      obtain ⟨hout, hinv⟩ := ih h hgood
      rw [renameToks]
      simp only
      rw [hout]
      exact ⟨rfl, hinv⟩
    | word w =>
      rw [renameToks] at hgood ⊢
      rw [labelled]
      split_ifs at hgood ⊢ with hlabel
      · obtain ⟨hinv, hw⟩ := hstep past s w h (good_of_renameToks hbad hgood)
        -- the name of the word stays the same behind its first occurrence
        obtain ⟨hout, hinv⟩ := ih hinv hgood
        have hfirst : name (past ++ [w] ++ labelled ts) w = name (past ++ [w]) w :=
          hname _ _ w (by simp)
        simp only
        rw [List.append_cons, hout, hw, List.map_cons, renamed, newName, if_pos hlabel, hfirst]
        exact ⟨rfl, hinv⟩
      · obtain ⟨hout, hinv⟩ := ih h hgood
        simp only
        rw [hout, List.map_cons, renamed, newName, if_neg hlabel]
        exact ⟨rfl, hinv⟩

end

/-! ### Names apart -/

/-- **A renaming is injective** on some words if and only if no word that stays is the name of another
among them; the names themselves are apart. -/
theorem newName_injOn_iff {name : List Char → List Char} {I : Set (List Char)}
    (hname : ∀ v ∈ I, ∀ w ∈ I, HasLabel v → HasLabel w → name v = name w → v = w) :
    Set.InjOn (newName name) I ↔ ∀ v ∈ I, HasLabel v → ∀ w ∈ I, ¬ HasLabel w → name v ≠ w := by
  constructor
  · intro hinj v hv hlabel w hw hstay heq
    have : v = w := hinj hv hw (by rw [newName, if_pos hlabel, newName, if_neg hstay, heq])
    exact hstay (this ▸ hlabel)
  · intro hapart v hv w hw heq
    unfold newName at heq
    split_ifs at heq with hlv hlw hlw
    · exact hname v hv w hw hlv hlw heq
    · exact absurd heq (hapart v hv hlv w hw hlw)
    · exact absurd heq.symm (hapart w hw hlw v hv hlv)
    · exact heq

/-- A word that the tokens of a text can have. -/
def IsWord (u : Unicode) (w : List Char) : Prop := w ≠ [] ∧ ∀ c ∈ w, u.word c = true

/-- A name as they are given out: a word without a label, a part of one or a label macro. -/
structure Neutral (u : Unicode) (name : List Char) : Prop where
  word : IsWord u name
  label : ¬ HasLabel name
  macros : ¬ HasOmit name

lemma not_word {u : Unicode} {c : Char} (h : c ∈ ['\n', ' ', '\t', '"', '\\', '/', '*', '#']) :
    u.word c = false := by
  have hall : ∀ c ∈ ['\n', ' ', '\t', '"', '\\', '/', '*', '#'],
      c.toNat < 128 ∧ (c.isAlphanum || c = '_') = false := by
    simp
  rw [u.word_ascii c (hall c h).1, (hall c h).2]

lemma IsWord.ne {u : Unicode} {w : List Char} (hw : IsWord u w) {c d : Char} (hc : c ∈ w)
    (hd : u.word d = false) : c ≠ d := by
  rintro rfl
  have := hw.2 c hc
  rw [hd] at this
  cases this

lemma IsWord.plain {u : Unicode} {w : List Char} (hw : IsWord u w) : ∀ c ∈ w, c ≠ '/' ∧ c ≠ '*' :=
  fun _ hc => ⟨hw.ne hc (not_word (by simp)), hw.ne hc (not_word (by simp))⟩

lemma IsWord.head {u : Unicode} {w : List Char} (hw : IsWord u w) (rest : List Char) {c : Char}
    (hc : u.word c = false) : (w ++ rest).head? ≠ some c := by
  obtain ⟨d, w, rfl⟩ := List.exists_cons_of_ne_nil hw.1
  intro heq
  exact hw.ne List.mem_cons_self hc (Option.some.inj heq)

lemma valid_renamed {u : Unicode} {name : List Char → List Char} {ts : List Tok} (h : Valid u.word ts)
    (hname : ∀ w, .word w ∈ ts → HasLabel w → IsWord u (name w)) :
    Valid u.word (ts.map (renamed name)) := by
  induction ts with
  | nil => trivial
  | cons t ts ih =>
    have hname' := fun w hw => hname w (List.mem_cons_of_mem t hw)
    cases t with
    | sep c => exact ⟨h.1, ih h.2 hname'⟩
    | word w =>
      obtain ⟨hne, hw, hopen, hts⟩ := h
      have hword : IsWord u (newName name w) := by
        unfold newName
        split_ifs with hlabel
        · exact hname w List.mem_cons_self hlabel
        · exact ⟨hne, hw⟩
      refine ⟨hword.1, hword.2, fun v hv => ?_, ih hts hname'⟩
      cases ts with
      | nil => cases hv
      | cons t ts =>
        cases t with
        | sep c => cases hv
        | word v' => exact hopen v' rfl

/-! ### The names of `scrub` -/

/-- The `n`-th name that `scrub` gives out. -/
def idName (n : ℕ) : List Char := "id_".toList ++ (toString n).toList

/-- The name of a word with a label, which is numbered by its first occurrence. -/
def scrubName (past : List (List Char)) (w : List Char) : List Char :=
  idName (past.eraseDups.idxOf w + 1)

lemma idName_injective : Function.Injective idName := by
  intro m n h
  have hdigits := List.append_cancel_left h
  rw [Nat.toString_eq_repr, Nat.toString_eq_repr, Nat.toList_repr, Nat.toList_repr] at hdigits
  rw [← Nat.ofDigitChars_ten_toDigits (n := m), hdigits, Nat.ofDigitChars_ten_toDigits]

lemma isWord_ascii {u : Unicode} {w : List Char} (hne : w ≠ [])
    (h : ∀ c ∈ w, c.toNat < 128 ∧ (c.isAlphanum || c = '_') = true) : IsWord u w :=
  ⟨hne, fun c hc => by rw [u.word_ascii c (h c hc).1, (h c hc).2]⟩

lemma isWord_idName (u : Unicode) (n : ℕ) : IsWord u (idName n) := by
  refine isWord_ascii (by simp [idName]) fun c hc => ?_
  rcases List.mem_append.mp hc with hc | hc
  · have hid : ∀ c ∈ "id_".toList, c.toNat < 128 ∧ (c.isAlphanum || c = '_') = true := by simp
    exact hid c hc
  · rw [Nat.toString_eq_repr, Nat.toList_repr] at hc
    have hdigit := Nat.isDigit_of_mem_toDigits (by decide) (by decide) hc
    have hrange : 48 ≤ c.toNat ∧ c.toNat ≤ 57 := by
      simpa [Char.isDigit, UInt32.le_iff_toNat_le] using hdigit
    exact ⟨by omega, by simp [Char.isAlphanum, hdigit]⟩

lemma neutral_idName (u : Unicode) (n : ℕ) : Neutral u (idName n) := by
  have hmem : ∀ c ∈ idName n, c ≠ 'O' ∧ c ≠ 'a' ∧ c ≠ 'o' ∧ c ≠ 'G' := by
    intro c hc
    rcases List.mem_append.mp hc with hc | hc
    · have hid : ∀ c ∈ "id_".toList, c ≠ 'O' ∧ c ≠ 'a' ∧ c ≠ 'o' ∧ c ≠ 'G' := by simp
      exact hid c hc
    · rw [Nat.toString_eq_repr, Nat.toList_repr] at hc
      have hdigit := Nat.isDigit_of_mem_toDigits (by decide) (by decide) hc
      refine ⟨?_, ?_, ?_, ?_⟩ <;>
      · rintro rfl
        revert hdigit
        decide
  refine ⟨isWord_idName u n, ?_, ?_⟩
  · rintro ⟨l, hl, hlw⟩
    have hletter : ∀ l ∈ nameLabels, 'a' ∈ l ∨ 'o' ∈ l ∨ 'G' ∈ l := by decide
    rcases hletter l hl with hc | hc | hc
    · exact (hmem _ (hlw.subset hc)).2.1 rfl
    · exact (hmem _ (hlw.subset hc)).2.2.1 rfl
    · exact (hmem _ (hlw.subset hc)).2.2.2 rfl
  · rintro (hl | hl)
    · exact (hmem 'O' (hl.subset (by decide))).1 rfl
    · exact (hmem 'O' (hl.subset (by decide))).1 rfl

lemma eraseDups_snoc (past : List (List Char)) (w : List Char) :
    (past ++ [w]).eraseDups = if w ∈ past then past.eraseDups else past.eraseDups ++ [w] := by
  rw [List.eraseDups_append]
  split_ifs with h <;> simp [List.removeAll, h, List.eraseDups_cons]

lemma scrubName_append {past : List (List Char)} {w : List Char} (h : w ∈ past)
    (more : List (List Char)) : scrubName (past ++ more) w = scrubName past w := by
  unfold scrubName
  rw [List.eraseDups_append, List.idxOf_append_of_mem (List.mem_eraseDups.mpr h)]

lemma rename_word (names : Names) (w : List Char) :
    rename names (⟨w, []⟩ : Match Char) = setdefault names w (idName (names.length + 1)) := by
  unfold rename
  simp only [erase_char, write_char]
  rfl

/-- The names that `scrub` has given out behind the words of `past`. -/
def Given (past : List (List Char)) (names : Names) : Prop :=
  names.length = past.eraseDups.length ∧
    ∀ w, names.lookup w = if w ∈ past then some (scrubName past w) else none

lemma given_rename {past : List (List Char)} {names : Names} (h : Given past names) (w : List Char) :
    Given (past ++ [w]) (rename names (⟨w, []⟩ : Match Char)).1 ∧
      (rename names (⟨w, []⟩ : Match Char)).2 = scrubName (past ++ [w]) w := by
  obtain ⟨hlen, hlookup⟩ := h
  rw [rename_word, setdefault, hlookup w]
  by_cases hmem : w ∈ past
  · have hsame : ∀ v, v ∈ past ++ [w] ↔ v ∈ past := fun v => by
      rw [List.mem_append, List.mem_singleton]
      exact or_iff_left_of_imp fun e => e ▸ hmem
    simp only [if_pos hmem]
    refine ⟨⟨by rw [hlen, eraseDups_snoc, if_pos hmem], fun v => ?_⟩, (scrubName_append hmem [w]).symm⟩
    rw [hlookup v]
    simp only [hsame]
    split_ifs with hv
    · rw [scrubName_append hv]
    · rfl
  · have hnew : scrubName (past ++ [w]) w = idName (names.length + 1) := by
      have hnot : w ∉ past.eraseDups := fun h => hmem (List.mem_eraseDups.mp h)
      rw [scrubName, eraseDups_snoc, if_neg hmem, List.idxOf_append_of_notMem hnot, hlen]
      simp
    simp only [if_neg hmem]
    refine ⟨⟨by simp [hlen, eraseDups_snoc, hmem], fun v => ?_⟩, hnew.symm⟩
    rw [List.lookup_append, hlookup v]
    by_cases hv : v ∈ past
    · rw [if_pos hv, if_pos (List.mem_append_left _ hv), scrubName_append hv]
      rfl
    · rw [if_neg hv, Option.none_or, List.lookup_singleton]
      by_cases hvw : v = w
      · simp [hvw, hnew, idName]
      · simp [hvw, hv]

/-- The name of a word in a text that `scrub` renames. -/
def nameIn (ts : List Tok) : List Char → List Char := scrubName (labelled ts)

lemma rename_text (u : Unicode) (text : List Char) :
    (renameToks rename [] (toks u.word text)).2 =
      (toks u.word text).map (renamed (nameIn (toks u.word text))) := by
  have hstart : Given [] [] := ⟨rfl, fun w => by simp⟩
  have hrun : (renameToks rename [] (toks u.word text)).2 = _ :=
    (renameToks_eq rename (fun _ => True) Given scrubName (fun _ _ _ => trivial)
      (fun past s w h _ => given_rename h w) (fun past more w h => scrubName_append h more) hstart
      trivial).1
  rwa [List.nil_append] at hrun

lemma nameIn_inj {ts : List Tok} {v w : List Char} (hv : v ∈ labelled ts)
    (h : nameIn ts v = nameIn ts w) : v = w :=
  (List.idxOf_inj (List.mem_eraseDups.mpr hv)).mp (Nat.succ.inj (idName_injective h))

/-! ### The names of `prompt_code` -/

section

variable {u : Unicode} {choice : ℕ → Fin SYLLABLES.length} {tries : ℕ}

lemma IsWord.append {v w : List Char} (hv : IsWord u v) (hw : IsWord u w) : IsWord u (v ++ w) :=
  ⟨by simp [hv.1], fun c hc => (List.mem_append.mp hc).elim (hv.2 c) (hw.2 c)⟩

lemma isWord_syllable (k : Fin SYLLABLES.length) : IsWord u (SYLLABLES.get k) := by
  have hall : ∀ syl ∈ SYLLABLES, syl ≠ [] ∧
      ∀ c ∈ syl, c.toNat < 128 ∧ (c.isAlphanum || c = '_') = true := by
    simp [SYLLABLES]
  obtain ⟨hne, hascii⟩ := hall _ (List.get_mem SYLLABLES k)
  exact isWord_ascii hne hascii

lemma neutralName_spec {s s' : Naming} {name : List Char}
    (h : neutralName u choice tries s = some (s', name)) :
    s'.used = s.used ++ [name] ∧ name ∉ s.used ∧ Neutral u name ∧ s'.names = s.names := by
  induction tries generalizing s with
  | zero => cases h
  | succ tries ih =>
    rw [neutralName] at h
    simp only at h
    split_ifs at h with hname
    · cases h
      have hclean : Clean u _ := Option.isNone_iff_eq_none.mp hname.2
      exact ⟨rfl, hname.1,
        ⟨((isWord_syllable _).append (isWord_syllable _)).append (isWord_syllable _),
          hclean.not_hasLabel (List.infix_refl _), hclean.not_hasOmit (List.infix_refl _)⟩, rfl⟩
    · have ih := @ih { s with drawn := s.drawn + 3 } h
      exact ih

/-- The names that were given out do not matter for a new one. -/
lemma neutralName_names (s : Naming) (names : Names) :
    neutralName u choice tries { s with names } =
      (neutralName u choice tries s).map fun p => ({ p.1 with names }, p.2) := by
  induction tries generalizing s with
  | zero => rfl
  | succ tries ih =>
    rw [neutralName, neutralName]
    simp only
    split_ifs
    · rfl
    · exact ih { s with drawn := s.drawn + 3 }

variable (u choice tries)

/-- The generator behind `n` names. -/
def drawn : ℕ → Option Naming
  | 0 => some ⟨0, [], []⟩
  | n + 1 => (drawn n).bind fun s => (neutralName u choice tries s).map Prod.fst

/-- The name that is drawn behind `n` others. -/
def drawnName (n : ℕ) : List Char :=
  ((drawn u choice tries (n + 1)).bind fun s => s.used.getLast?).getD []

/-- The name of a word with a label: the one that was drawn at its first occurrence. -/
def promptName (past : List (List Char)) (w : List Char) : List Char :=
  drawnName u choice tries (past.idxOf w)

variable {u choice tries}

lemma drawn_used {n : ℕ} {s : Naming} (h : drawn u choice tries n = some s) :
    s.used = (List.range n).map (drawnName u choice tries) ∧ s.used.Nodup ∧
      ∀ name ∈ s.used, Neutral u name := by
  induction n generalizing s with
  | zero =>
    cases h
    exact ⟨rfl, List.nodup_nil, by simp⟩
  | succ n ih =>
    have hlast : drawnName u choice tries n = (s.used.getLast?).getD [] := by
      rw [drawnName, h, Option.bind_some]
    rw [drawn] at h
    obtain ⟨s₀, hs₀, h⟩ := Option.bind_eq_some_iff.mp h
    obtain ⟨⟨s₁, name⟩, hname, rfl⟩ := Option.map_eq_some_iff.mp h
    obtain ⟨hused, hnodup, hword⟩ := ih hs₀
    obtain ⟨hused₁, hfresh, hisword, -⟩ := neutralName_spec hname
    rw [hused₁, List.getLast?_append, List.getLast?_singleton] at hlast
    refine ⟨?_, ?_, ?_⟩
    · rw [hused₁, List.range_succ, List.map_append, ← hused, List.map_singleton, hlast]
      rfl
    · rw [hused₁]
      exact List.nodup_append.mpr ⟨hnodup, List.nodup_singleton name, fun v hv w hw => by
        rw [List.mem_singleton.mp hw]
        exact fun e => hfresh (e ▸ hv)⟩
    · rw [hused₁]
      exact fun v hv => (List.mem_append.mp hv).elim (hword v) fun hv =>
        List.mem_singleton.mp hv ▸ hisword

/-- What `prompt_code` has given out behind the words of `past`. -/
def Drawn (u : Unicode) (choice : ℕ → Fin SYLLABLES.length) (tries : ℕ) (past : List (List Char))
    (state : Option Naming) : Prop :=
  ∃ s, state = some s ∧ drawn u choice tries past.length = some { s with names := [] } ∧
    ∀ w, s.names.lookup w = if w ∈ past then some (promptName u choice tries past w) else none

lemma promptName_append {past : List (List Char)} {w : List Char} (h : w ∈ past)
    (more : List (List Char)) :
    promptName u choice tries (past ++ more) w = promptName u choice tries past w := by
  unfold promptName
  rw [List.idxOf_append_of_mem h]

lemma drawn_renameNeutral {past : List (List Char)} {state : Option Naming}
    (h : Drawn u choice tries past state) (w : List Char)
    (hgood : (renameNeutral u choice tries state (⟨w, []⟩ : Match Char)).1 ≠ none) :
    Drawn u choice tries (past ++ [w])
        (renameNeutral u choice tries state (⟨w, []⟩ : Match Char)).1 ∧
      (renameNeutral u choice tries state (⟨w, []⟩ : Match Char)).2 =
        promptName u choice tries (past ++ [w]) w := by
  obtain ⟨s, rfl, hdrawn, hlookup⟩ := h
  unfold renameNeutral at hgood ⊢
  rw [Option.bind_some] at hgood ⊢
  cases hname : neutralName u choice tries s with
  | none => rw [hname] at hgood; exact absurd rfl hgood
  | some p =>
    obtain ⟨s', fresh⟩ := p
    obtain ⟨hused, hfresh, -, hnames⟩ := neutralName_spec hname
    have hnext : drawn u choice tries (past.length + 1) = some { s' with names := [] } := by
      rw [drawn, hdrawn, Option.bind_some, neutralName_names s [], hname]
      rfl
    have hnew : drawnName u choice tries past.length = fresh := by
      rw [drawnName, hnext, Option.bind_some]
      simp [hused]
    simp only [erase_char, write_char, setdefault, hnames, hlookup w]
    -- a word that occurred has its name, and the new one is lost
    by_cases hmem : w ∈ past
    · have hsame : ∀ v, v ∈ past ++ [w] ↔ v ∈ past := fun v => by
        rw [List.mem_append, List.mem_singleton]
        exact or_iff_left_of_imp fun e => e ▸ hmem
      simp only [if_pos hmem]
      refine ⟨⟨_, rfl, by rw [List.length_append]; exact hnext, fun v => ?_⟩,
        (promptName_append hmem [w]).symm⟩
      simp only [hlookup v, hsame]
      split_ifs with hv
      · rw [promptName_append hv]
      · rfl
    · have hw : promptName u choice tries (past ++ [w]) w = fresh := by
        rw [promptName, List.idxOf_append_of_notMem hmem]
        simpa using hnew
      simp only [if_neg hmem]
      refine ⟨⟨_, rfl, by rw [List.length_append]; exact hnext, fun v => ?_⟩, hw.symm⟩
      rw [List.lookup_append, hlookup v]
      by_cases hv : v ∈ past
      · rw [if_pos hv, if_pos (List.mem_append_left _ hv), promptName_append hv]
        rfl
      · rw [if_neg hv, Option.none_or, List.lookup_singleton]
        by_cases hvw : v = w
        · simp [hvw, hw]
        · simp [hvw, hv]

lemma renameNeutral_none {state : Option Naming} {m : Match Char}
    (h : (renameNeutral u choice tries state m).1 ≠ none) : state ≠ none := by
  rintro rfl
  exact h rfl

lemma prompt_text {text out : List Char} {s : Naming}
    (h : (NAME_WITH_LABEL u).subState (renameNeutral u choice tries) (some ⟨0, [], []⟩) text =
      (some s, out)) :
    out = render ((toks u.word text).map
        (renamed (promptName u choice tries (labelled (toks u.word text))))) ∧
      Drawn u choice tries (labelled (toks u.word text)) (some s) := by
  rw [name_subState] at h
  obtain ⟨hstate, hout⟩ := Prod.mk.inj h
  have hstart : Drawn u choice tries [] (some ⟨0, [], []⟩) := ⟨_, rfl, rfl, fun w => by simp⟩
  have hgood : (renameToks (renameNeutral u choice tries) (some ⟨0, [], []⟩) (toks u.word text)).1 ≠ none := by
    rw [hstate]
    exact Option.some_ne_none s
  have hrun := renameToks_eq (renameNeutral u choice tries) (· ≠ none) (Drawn u choice tries)
    (promptName u choice tries) (fun _ _ => renameNeutral_none)
    (fun past state w h hgood => drawn_renameNeutral h w hgood)
    (fun past more w h => promptName_append h more) hstart hgood
  rw [List.nil_append, hstate] at hrun
  exact ⟨by rw [← hout, hrun.1], hrun.2⟩

/-- Two words with a label have two names, each neutral. -/
lemma promptName_spec {past : List (List Char)} {state : Option Naming}
    (h : Drawn u choice tries past state) :
    (∀ v ∈ past, Neutral u (promptName u choice tries past v)) ∧
      ∀ v ∈ past, ∀ w ∈ past, promptName u choice tries past v = promptName u choice tries past w →
        v = w := by
  obtain ⟨s, rfl, hdrawn, -⟩ := h
  obtain ⟨hused, hnodup, hword⟩ := drawn_used hdrawn
  simp only at hused hnodup hword
  rw [hused] at hnodup hword
  have hlt : ∀ v ∈ past, past.idxOf v ∈ List.range past.length := fun v hv =>
    List.mem_range.mpr (List.idxOf_lt_length_of_mem hv)
  refine ⟨fun v hv => hword _ (List.mem_map_of_mem (hlt v hv)), fun v hv w hw heq => ?_⟩
  exact (List.idxOf_inj hv).mp (List.inj_on_of_nodup_map hnodup (hlt v hv) (hlt w hw) heq)

end

/-! ### Alpha-renaming -/

/-- The words of a text. -/
def words (u : Unicode) (text : List Char) : Set (List Char) := {w | .word w ∈ toks u.word text}

lemma mem_words {u : Unicode} {text w : List Char} :
    w ∈ words u text ↔ .word w ∈ toks u.word text := Iff.rfl

/-- No word that stays is the name of another. -/
def Apart (name : List Char → List Char) (I : Set (List Char)) : Prop :=
  ∀ v ∈ I, HasLabel v → ∀ w ∈ I, ¬ HasLabel w → name v ≠ w

/-- Each occurrence of a word becomes its new name, and words without a label stay. -/
def RenamedBy (u : Unicode) (name : List Char → List Char) (text out : List Char) : Prop :=
  toks u.word out = (toks u.word text).map (renamed name) ∧ ∀ w, ¬ HasLabel w → newName name w = w

lemma renamedBy_of {u : Unicode} {name : List Char → List Char} {text out : List Char}
    (hout : out = render ((toks u.word text).map (renamed name)))
    (hword : ∀ v ∈ labelled (toks u.word text), IsWord u (name v)) : RenamedBy u name text out := by
  refine ⟨?_, fun w hw => if_neg hw⟩
  rw [hout]
  exact toks_render (valid_renamed (valid_toks text) fun w hw hlabel =>
    hword w (mem_labelled.mpr ⟨hw, hlabel⟩))

lemma injOn_iff_apart {u : Unicode} {name : List Char → List Char} {text : List Char}
    (hinj : ∀ v ∈ labelled (toks u.word text), ∀ w ∈ labelled (toks u.word text),
      name v = name w → v = w) {I : Set (List Char)} (hI : I ⊆ words u text) :
    Set.InjOn (newName name) I ↔ Apart name I :=
  newName_injOn_iff fun v hv w hw hlv hlw =>
    hinj v (mem_labelled.mpr ⟨hI hv, hlv⟩) w (mem_labelled.mpr ⟨hI hw, hlw⟩)

/-- **Renaming is an alpha-renaming** exactly where no name is captured: for every text that `scrub`
accepts and everything `prompt_code` makes, the words with a label get names that are apart, so that the
renaming is injective on the identifiers, whichever of the words these are, if and only if none that stays
is the name of another. -/
theorem renaming_injective_iff (u : Unicode) :
    (∀ code out : List Char, scrub u code = .ok out →
      let text := strip u code
      let name := nameIn (toks u.word text)
      RenamedBy u name text out ∧
        ∀ I ⊆ words u text, Set.InjOn (newName name) I ↔ Apart name I) ∧
    ∀ (choice : ℕ → Fin SYLLABLES.length) (tries : ℕ) (preamble func : List (List Char))
      (out : List Char), promptText u choice tries (joined preamble func) = some out →
      let text := strip u (joined preamble func)
      let name := promptName u choice tries (labelled (toks u.word text))
      RenamedBy u name text out ∧
        ∀ I ⊆ words u text, Set.InjOn (newName name) I ↔ Apart name I := by
  constructor
  · intro code out h
    have hout : out = scrubbed u code := by
      unfold scrub at h
      split at h
      · cases h
      · exact (Except.ok.inj h).symm
    refine ⟨renamedBy_of ?_ fun v _ => isWord_idName u _, fun I hI =>
      injOn_iff_apart (fun v hv w _ heq => nameIn_inj hv heq) hI⟩
    rw [hout, scrubbed, name_subState, rename_text]
  · intro choice tries preamble func out h
    unfold promptText at h
    generalize hrun : (NAME_WITH_LABEL u).subState (renameNeutral u choice tries) (some ⟨0, [], []⟩)
      (strip u (joined preamble func)) = p at h
    obtain ⟨state, code⟩ := p
    obtain ⟨s, rfl, rfl⟩ := Option.map_eq_some_iff.mp h
    obtain ⟨hout, hdrawn⟩ := prompt_text hrun
    obtain ⟨hword, hinj⟩ := promptName_spec hdrawn
    exact ⟨renamedBy_of hout fun v hv => (hword v hv).word, fun I hI => injOn_iff_apart hinj hI⟩

/-- A text whose names stay apart, and one that `prompt_code` renames. -/
theorem renaming_injective_small :
    Set.InjOn (newName (nameIn (toks ascii.word (strip ascii "int x, bad;".toList))))
        (words ascii (strip ascii "int x, bad;".toList)) ∧
      toks ascii.word "\nkakaka;".toList =
        (toks ascii.word (strip ascii (joined [] ["bad;".toList]))).map (renamed
          (promptName ascii (fun _ => ⟨0, by decide⟩) 1
            (labelled (toks ascii.word (strip ascii (joined [] ["bad;".toList])))))) := by
  have hstrip : strip ascii "int x, bad;".toList = "int x, bad;".toList := by decide +kernel
  have htoks : toks ascii.word "int x, bad;".toList = [.word "int".toList, .sep ' ', .word "x".toList,
      .sep ',', .sep ' ', .word "bad".toList, .sep ';'] := by decide +kernel
  constructor
  · refine (((renaming_injective_iff ascii).1 "int x, bad;".toList "int x, id_1;".toList
      (by decide +kernel)).2 _ subset_rfl).mpr fun v hv hlv w hw hlw heq => ?_
    simp only [mem_words, hstrip, htoks, List.mem_cons, Tok.word.injEq, reduceCtorEq,
      List.not_mem_nil, or_false, false_or] at hv hw heq
    have hname : nameIn [.word "int".toList, .sep ' ', .word "x".toList, .sep ',', .sep ' ',
        .word "bad".toList, .sep ';'] "bad".toList = "id_1".toList := by decide +kernel
    rcases hv with rfl | rfl | rfl
    · exact absurd hlv (by decide)
    · exact absurd hlv (by decide)
    · rw [hname] at heq
      rcases hw with rfl | rfl | rfl <;> revert heq <;> decide
  · exact ((renaming_injective_iff ascii).2 (fun _ => ⟨0, by decide⟩) 1 [] ["bad;".toList] "\nkakaka;".toList
      (by decide +kernel)).1.1

/-- A variable that is called as the first new name is captured. -/
theorem name_is_captured :
    scrub ascii "int id_1, bad;".toList = .ok "int id_1, id_1;".toList ∧
      ¬ Set.InjOn (newName (nameIn (toks ascii.word (strip ascii "int id_1, bad;".toList))))
        (words ascii (strip ascii "int id_1, bad;".toList)) := by
  have hstrip : strip ascii "int id_1, bad;".toList = "int id_1, bad;".toList := by decide +kernel
  refine ⟨by decide +kernel, fun hinj => ?_⟩
  rw [hstrip] at hinj
  have hmem : ∀ w ∈ ["id_1".toList, "bad".toList], w ∈ words ascii "int id_1, bad;".toList := by
    simp only [mem_words]
    decide +kernel
  have heq := hinj (hmem "id_1".toList (by simp)) (hmem "bad".toList (by simp)) (by decide +kernel)
  revert heq
  decide

end CSecureBuild.Harness.Renaming
