import Mathlib

/-!
Python's `str` as a list of characters: `splitlines`, with and without the line ends, and what the
character classes depend on. A line end is any of the characters `splitlines` breaks on, and a carriage
return before a line feed makes one line end with it.
-/

namespace CSecureBuild.PyLib.Text

/-! ### Character classes -/

/-- The classes of characters, as a version of Python's database has them; on ASCII they are fixed. -/
structure Unicode where
  /-- `\w` -/
  word : Char → Bool
  /-- `\s`, and what `strip` takes away -/
  space : Char → Bool
  /-- `\d` -/
  digit : Char → Bool
  word_ascii : ∀ c : Char, c.toNat < 128 → word c = (c.isAlphanum || c = '_')
  space_ascii : ∀ c : Char, c.toNat < 128 →
    space c = (c = ' ' || (9 ≤ c.toNat && c.toNat ≤ 13) || (28 ≤ c.toNat && c.toNat ≤ 31))
  digit_ascii : ∀ c : Char, c.toNat < 128 → digit c = c.isDigit

/-- The classes without the characters beyond ASCII. -/
def ascii : Unicode where
  word c := c.isAlphanum || c = '_'
  space c := c = ' ' || (9 ≤ c.toNat && c.toNat ≤ 13) || (28 ≤ c.toNat && c.toNat ≤ 31)
  digit c := c.isDigit
  word_ascii _ _ := rfl
  space_ascii _ _ := rfl
  digit_ascii _ _ := rfl

/-- Comparing texts. -/
instance lawfulText : LawfulBEq (List Char) := inferInstance

/-! ### Lines -/

/-- The characters `splitlines` breaks on. -/
def isBreak (c : Char) : Bool :=
  c ∈ ['\n', '\r', '\x0b', '\x0c', '\x1c', '\x1d', '\x1e', '\u0085', '\u2028', '\u2029']

lemma isBreak_of_printable {c : Char} (h : 32 ≤ c.toNat ∧ c.toNat < 128) : isBreak c = false := by
  rw [isBreak, decide_eq_false_iff_not]
  intro hmem
  simp only [List.mem_cons, List.not_mem_nil, or_false] at hmem
  rcases hmem with rfl | rfl | rfl | rfl | rfl | rfl | rfl | rfl | rfl | rfl <;>
    (revert h; decide)

/-- `text.splitlines(keepends=True)`. -/
def splitlinesKeep : List Char → List (List Char)
  | [] => []
  | c :: rest =>
    if isBreak c = true ∧ ¬ (c = '\r' ∧ rest.head? = some '\n') then [c] :: splitlinesKeep rest
    else
      match splitlinesKeep rest with
      | [] => [[c]]
      | line :: lines => (c :: line) :: lines

/-- A line without its line end. -/
def dropBreak (line : List Char) : List Char := line.takeWhile fun c => !isBreak c

/-- `text.splitlines()`. -/
def splitlines (text : List Char) : List (List Char) := (splitlinesKeep text).map dropBreak

variable {text line rest : List Char}

@[simp] lemma splitlinesKeep_nil : splitlinesKeep [] = [] := rfl

@[simp] lemma splitlines_nil : splitlines [] = [] := rfl

/-- The lines of a text, put together. -/
theorem flatten_splitlinesKeep (text : List Char) : (splitlinesKeep text).flatten = text := by
  induction text with
  | nil => rfl
  | cons c rest ih =>
    unfold splitlinesKeep
    split_ifs with h
    · simp [ih]
    · cases hl : splitlinesKeep rest with
      | nil =>
        rw [hl] at ih
        simp [← ih]
      | cons line lines =>
        rw [hl] at ih
        simp [← ih]

lemma splitlinesKeep_line (h : ∀ c ∈ line, isBreak c = false) (rest : List Char) :
    splitlinesKeep (line ++ '\n' :: rest) = (line ++ ['\n']) :: splitlinesKeep rest := by
  induction line with
  | nil =>
    conv_lhs => unfold splitlinesKeep
    rw [List.nil_append]
    simp only
    rw [if_pos ⟨by decide, by simp⟩]
    rfl
  | cons c line ih =>
    have hc : isBreak c = false := h c (by simp)
    have ih := ih fun x hx => h x (List.mem_cons_of_mem c hx)
    rw [List.cons_append]
    conv_lhs => unfold splitlinesKeep
    rw [if_neg (by simp [hc]), ih]
    rfl

lemma splitlinesKeep_tail (h : ∀ c ∈ line, isBreak c = false) (hne : line ≠ []) :
    splitlinesKeep line = [line] := by
  induction line with
  | nil => exact absurd rfl hne
  | cons c line ih =>
    have hc : isBreak c = false := h c (by simp)
    unfold splitlinesKeep
    rw [if_neg (by simp [hc])]
    cases hl : line with
    | nil => rfl
    | cons d line' =>
      rw [← hl, ih (fun x hx => h x (List.mem_cons_of_mem c hx)) (by simp [hl])]

lemma dropBreak_eq (h : ∀ c ∈ line, isBreak c = false) : dropBreak line = line :=
  List.takeWhile_eq_self_iff.mpr fun c hc => by simp [h c hc]

lemma dropBreak_line (h : ∀ c ∈ line, isBreak c = false) : dropBreak (line ++ ['\n']) = line := by
  unfold dropBreak
  rw [List.takeWhile_append_of_pos fun c hc => by simp [h c hc]]
  simp [isBreak]

lemma splitlines_line (h : ∀ c ∈ line, isBreak c = false) (rest : List Char) :
    splitlines (line ++ '\n' :: rest) = line :: splitlines rest := by
  unfold splitlines
  rw [splitlinesKeep_line h, List.map_cons, dropBreak_line h]

lemma splitlines_tail (h : ∀ c ∈ line, isBreak c = false) (hne : line ≠ []) :
    splitlines line = [line] := by
  unfold splitlines
  rw [splitlinesKeep_tail h hne, List.map_singleton, dropBreak_eq h]

/-- The first line of a text, with its line end if another one follows. -/
lemma splitlinesKeep_first (h : text ≠ []) : ∃ first rest, text = first ++ rest ∧
    splitlinesKeep text = first :: splitlinesKeep rest ∧ first ≠ [] ∧
      (rest = [] ∨ ∃ front c, first = front ++ [c] ∧ isBreak c = true) := by
  induction text with
  | nil => exact absurd rfl h
  | cons c text ih =>
    by_cases hc : isBreak c = true ∧ ¬ (c = '\r' ∧ text.head? = some '\n')
    · exact ⟨[c], text, rfl, by rw [splitlinesKeep, if_pos hc], List.cons_ne_nil c [], Or.inr ⟨[], c, rfl, hc.1⟩⟩
    · by_cases hne : text = []
      · subst hne
        exact ⟨[c], [], rfl, splitlinesKeep_tail (by simpa using hc) (List.cons_ne_nil c []), List.cons_ne_nil c [],
          Or.inl rfl⟩
      · obtain ⟨first, rest, rfl, hlines, -, hend⟩ := ih hne
        refine ⟨c :: first, rest, rfl, by rw [splitlinesKeep, if_neg hc, hlines], List.cons_ne_nil c first,
          hend.imp_right ?_⟩
        rintro ⟨front, d, rfl, hd⟩
        exact ⟨c :: front, d, rfl, hd⟩

end CSecureBuild.PyLib.Text
