import CSecureBuild.Harness.Renaming

/-!
Where label words stand. All letters of a label word are word characters, so one stands within a word of the
text (`clean_append`), and a text has none if it is put together from parts that have none.
-/

namespace CSecureBuild.Harness.LabelWords

open CSecureBuild.PyLib.Cells CSecureBuild.PyLib.Regex CSecureBuild.PyLib.Text CSecureBuild.PyLib.Words
open CSecureBuild.Harness.Scrub CSecureBuild.Harness.Patterns CSecureBuild.Harness.Renaming

/-! ### Letters -/

/-- What Python's classes say of some characters beyond ASCII: the two that match an `i` are letters, and no
line end is one. -/
structure Classes (u : Unicode) : Prop where
  letters : u.word '\u0130' = true ∧ u.word '\u0131' = true
  breaks : ∀ c, isBreak c = true → u.word c = false

/-- The classes with these two letters. -/
def turkish : Unicode :=
  { ascii with
    word := fun c => c.isAlphanum || c = '_' || c = '\u0130' || c = '\u0131'
    word_ascii := fun c h => by
      have hno : ∀ d : Char, 128 ≤ d.toNat → c ≠ d := fun d hd e => by rw [e] at h; omega
      simp [hno '\u0130' (by decide), hno '\u0131' (by decide)] }

lemma classes_turkish : Classes turkish := by
  refine ⟨by decide, fun c hc => ?_⟩
  have hall : ['\n', '\r', '\x0b', '\x0c', '\x1c', '\x1d', '\x1e', '\u0085', '\u2028', '\u2029'].all
      (fun c => !turkish.word c) = true := by decide
  simpa using List.all_eq_true.mp hall c (of_decide_eq_true hc)

variable {u : Unicode} {w x pattern text : List Char} {c : Char}

lemma word_caseless (hu : Classes u) (hpattern : pattern ∈ "fix".toList :: leakWords) {p : Char}
    (hp : p ∈ pattern) (h : caseless p c = true) : u.word c = true := by
  have hall : ("fix".toList :: leakWords).all (fun pattern => pattern.all fun p =>
      [p, p.toUpper].all fun d => d.toNat < 128 && (d.isAlphanum || d = '_')) = true := by decide
  have hascii : ∀ d ∈ [p, p.toUpper], u.word d = true := by
    intro d hd
    have hd := List.all_eq_true.mp (List.all_eq_true.mp (List.all_eq_true.mp hall pattern hpattern) p hp) d hd
    rw [Bool.and_eq_true, decide_eq_true_eq] at hd
    rw [u.word_ascii d hd.1, hd.2]
  unfold caseless at h
  simp only [Bool.or_eq_true, Bool.and_eq_true, decide_eq_true_eq] at h
  rcases h with (rfl | rfl) | ⟨-, rfl | rfl⟩
  · exact hascii _ (by simp)
  · exact hascii _ (by simp)
  · exact hu.letters.1
  · exact hu.letters.2

lemma spells_nil_iff : spells pattern [] = true ↔ pattern = [] := by
  cases pattern <;> simp [spells]

/-- What is spelled before a character that is no letter ends before it. -/
lemma spells_left (hletters : ∀ p ∈ pattern, ∀ c, caseless p c = true → u.word c = true)
    (hx : ∀ c ∈ x.head?, u.word c = false) (h : spells pattern (w ++ x) = true) : spells pattern w = true := by
  induction w generalizing pattern with
  | nil =>
    cases pattern with
    | nil => rfl
    | cons p pattern =>
      cases x with
      | nil => exact h
      | cons c x =>
        rw [List.nil_append, spells, Bool.and_eq_true] at h
        have hc := hletters p List.mem_cons_self c h.1
        rw [hx c rfl] at hc
        cases hc
  | cons c w ih =>
    cases pattern with
    | nil => rfl
    | cons p pattern =>
      rw [List.cons_append, spells, Bool.and_eq_true] at h
      rw [spells, h.1, ih (fun q hq => hletters q (List.mem_cons_of_mem p hq)) h.2]
      rfl

lemma leakAt_iff {before after : List Char} : leakAt u before after = true ↔
    (∃ pattern ∈ leakWords, spells pattern after = true) ∨
      before.head?.any u.word ≠ after.head?.any u.word ∧ spells "fix".toList after = true := by
  unfold leakAt
  simp

lemma leakAt_left (hu : Classes u) (hx : ∀ c ∈ x.head?, u.word c = false) {before : List Char}
    (h : leakAt u before (w ++ x) = true) : w ≠ [] ∧ leakAt u before w = true := by
  have hspells : ∀ pattern ∈ "fix".toList :: leakWords, spells pattern (w ++ x) = true →
      w ≠ [] ∧ spells pattern w = true := by
    intro pattern hpattern h
    have hw := spells_left (fun p hp c hc => word_caseless hu hpattern hp hc) hx h
    refine ⟨?_, hw⟩
    rintro rfl
    have hne : ("fix".toList :: leakWords).all (fun pattern => !pattern.isEmpty) = true := by decide
    have := List.all_eq_true.mp hne pattern hpattern
    rw [spells_nil_iff.mp hw] at this
    cases this
  rw [leakAt_iff] at h
  rcases h with ⟨pattern, hpattern, h⟩ | ⟨hbound, h⟩
  · obtain ⟨hne, hw⟩ := hspells pattern (List.mem_cons_of_mem _ hpattern) h
    exact ⟨hne, leakAt_iff.mpr (Or.inl ⟨pattern, hpattern, hw⟩)⟩
  · obtain ⟨hne, hw⟩ := hspells _ List.mem_cons_self h
    refine ⟨hne, leakAt_iff.mpr (Or.inr ⟨?_, hw⟩)⟩
    cases w with
    | nil => exact absurd rfl hne
    | cons c w => exact hbound

lemma not_leakAt_open (hu : Classes u) (hx : ∀ c ∈ x.head?, u.word c = false) (before : List Char) :
    leakAt u before x = false :=
  Bool.eq_false_of_not_eq_true fun h => (leakAt_left (w := []) hu hx h).1 rfl

/-! ### Texts put together -/

/-- **No label word goes over the end of a word.** -/
theorem clean_append (hu : Classes u) (hx : ∀ c ∈ x.head?, u.word c = false) :
    Clean u (w ++ x) ↔ Clean u w ∧ Clean u x := by
  simp only [clean_iff]
  constructor
  · intro h
    refine ⟨fun a b hab => Bool.eq_false_of_not_eq_true fun hleak => ?_, fun a b hab => ?_⟩
    · have hat := h a (b ++ x) (by rw [hab, List.append_assoc])
      rw [leakAt_append hleak] at hat
      cases hat
    · cases a with
      | nil =>
        obtain rfl : x = b := hab
        exact not_leakAt_open hu hx _
      | cons c a =>
        have hat := h (w ++ c :: a) b (by rw [hab, List.append_assoc])
        have hsame : (w ++ c :: a).reverse.head?.any u.word = (c :: a).reverse.head?.any u.word := by
          simp [List.head?_append]
        rwa [leakAt_congr hsame] at hat
  · rintro ⟨hw, hx'⟩ a b hab
    rcases List.append_eq_append_iff.mp hab with ⟨a', rfl, hb⟩ | ⟨b', rfl, rfl⟩
    · cases a' with
      | nil =>
        obtain rfl : x = b := hb
        exact not_leakAt_open hu hx _
      | cons c a' =>
        have hat := hx' (c :: a') b hb
        have hsame :
            (c :: a').reverse.head?.any u.word = (w ++ c :: a').reverse.head?.any u.word := by
          simp [List.head?_append]
        rwa [leakAt_congr hsame] at hat
    · refine Bool.eq_false_of_not_eq_true fun hleak => ?_
      have hat := hw a b' rfl
      rw [(leakAt_left hu hx hleak).2] at hat
      cases hat

lemma clean_cons (hu : Classes u) (hc : u.word c = false) : Clean u (c :: x) ↔ Clean u x := by
  have hsame : ∀ a b, leakAt u (c :: a).reverse b = leakAt u a.reverse b := by
    intro a b
    refine leakAt_congr ?_ b
    rw [List.reverse_cons, List.head?_append]
    cases a.reverse with
    | nil => simp [hc]
    | cons d a => rfl
  simp only [clean_iff]
  constructor
  · intro h a b hab
    rw [← hsame]
    exact h (c :: a) b (by rw [hab]; rfl)
  · intro h a b hab
    cases a with
    | nil =>
      obtain rfl : c :: x = b := hab
      exact not_leakAt_open hu (by simpa using hc) _
    | cons d a =>
      obtain ⟨rfl, htail⟩ := List.cons.inj hab
      rw [hsame]
      exact h a b htail

lemma clean_sep (hu : Classes u) (hc : u.word c = false) :
    Clean u (w ++ c :: x) ↔ Clean u w ∧ Clean u x := by
  rw [clean_append hu (by simpa using hc), clean_cons hu hc]

lemma Clean.front (h : Clean u (w ++ x)) : Clean u w :=
  Clean.infix (x := []) h fun _ hc => by cases hc

lemma clean_plain (hu : Classes u) (h : ∀ c ∈ w, u.word c = false) : Clean u (w ++ x) ↔ Clean u x := by
  induction w with
  | nil => exact Iff.rfl
  | cons c w ih =>
    rw [List.cons_append, clean_cons hu (h c List.mem_cons_self), ih fun d hd => h d (List.mem_cons_of_mem c hd)]

/-! ### Texts that cannot spell one -/

lemma spells_chars (h : spells pattern text = true) :
    ∀ p ∈ pattern, ∃ c ∈ text, caseless p c = true := by
  induction pattern generalizing text with
  | nil => simp
  | cons p pattern ih =>
    cases text with
    | nil => cases h
    | cons c text =>
      rw [spells, Bool.and_eq_true] at h
      refine List.forall_mem_cons.mpr ⟨⟨c, List.mem_cons_self, h.1⟩, fun q hq => ?_⟩
      obtain ⟨d, hd, hqd⟩ := ih h.2 q hq
      exact ⟨d, List.mem_cons_of_mem c hd, hqd⟩

/-- A text cannot spell a label word. -/
def harmless (text : List Char) : Bool :=
  ("fix".toList :: leakWords).all fun pattern => pattern.any fun p => text.all fun c => !caseless p c

/-- A text has no label word if its characters cannot spell one. -/
lemma clean_of_chars {chars : List Char} (hchars : harmless chars = true) (h : ∀ c ∈ text, c ∈ chars) :
    Clean u text := by
  refine clean_iff.mpr fun a b hab => Bool.eq_false_of_not_eq_true fun hleak => ?_
  obtain ⟨pattern, hpattern, hspells⟩ : ∃ pattern ∈ "fix".toList :: leakWords, spells pattern b = true := by
    unfold leakAt at hleak
    rw [Bool.or_eq_true, Bool.and_eq_true] at hleak
    rcases hleak with hleak | ⟨-, hleak⟩
    · obtain ⟨pattern, hmem, hspells⟩ := List.any_eq_true.mp hleak
      exact ⟨pattern, List.mem_cons_of_mem _ hmem, hspells⟩
    · exact ⟨_, List.mem_cons_self, hleak⟩
  obtain ⟨p, hp, hnone⟩ := List.any_eq_true.mp (List.all_eq_true.mp hchars pattern hpattern)
  obtain ⟨c, hc, hpc⟩ := spells_chars hspells p hp
  have hmem : c ∈ text := by
    rw [hab]
    exact List.mem_append_right a hc
  have hno := List.all_eq_true.mp hnone c (h c hmem)
  rw [hpc] at hno
  cases hno

lemma clean_nil : Clean u [] := by
  refine clean_iff.mpr fun a b hab => ?_
  obtain ⟨rfl, rfl⟩ := List.append_eq_nil_iff.mp hab.symm
  rfl

lemma clean_append_plain (hu : Classes u) (h : ∀ c ∈ x, u.word c = false) : Clean u (w ++ x) ↔ Clean u w := by
  have hx : Clean u x := by
    have := clean_plain (x := []) hu h
    rw [List.append_nil] at this
    exact this.mpr clean_nil
  rw [clean_append hu fun c hc => h c (List.mem_of_mem_head? hc), and_iff_left hx]

/-- The characters of a number. -/
def numberChars : List Char := "-0123456789".toList

lemma toString_nat (n : ℕ) : ∀ c ∈ (toString n).toList, c ∈ numberChars := by
  intro c hc
  rw [Nat.toString_eq_repr, Nat.toList_repr] at hc
  have hdigit := Nat.isDigit_of_mem_toDigits (by decide) (by decide) hc
  have hrange : 48 ≤ c.toNat ∧ c.toNat ≤ 57 := by
    simpa [Char.isDigit, UInt32.le_iff_toNat_le] using hdigit
  obtain ⟨hlow, hhigh⟩ := hrange
  rw [← Char.ofNat_toNat c]
  generalize c.toNat = k at hlow hhigh
  have hall : ∀ k ∈ List.range' 48 10, Char.ofNat k ∈ numberChars := by decide +kernel
  exact hall k (List.mem_range'_1.mpr ⟨hlow, by omega⟩)

end CSecureBuild.Harness.LabelWords
