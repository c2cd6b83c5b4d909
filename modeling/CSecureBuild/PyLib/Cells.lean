import Mathlib

/-!
Texts as lists of cells: a cell holds a character, and may carry a mark that functions on texts do not
look at. A character is a cell without a mark. The functions on texts here are those of Python's `str`
that a marked text needs too: what they write gets the mark of what it stands for.
-/

namespace CSecureBuild.PyLib.Cells

/-! ### Cells -/

/-- A character that may carry a mark. -/
class Cell (α : Type) where
  val : α → Char
  /-- A character without a mark of its own. -/
  plain : Char → α
  /-- Another character with the same mark. -/
  put : α → Char → α
  val_plain : ∀ c, val (plain c) = c
  val_put : ∀ a c, val (put a c) = c

export Cell (val put)

instance : Cell Char := ⟨id, id, fun _ c => c, fun _ => rfl, fun _ _ => rfl⟩

instance {τ : Type} [Inhabited τ] : Cell (Char × τ) :=
  ⟨Prod.fst, fun c => (c, default), fun a c => (c, a.2), fun _ => rfl, fun _ _ => rfl⟩

@[simp] lemma val_plain {α : Type} [Cell α] (c : Char) : val (Cell.plain c : α) = c := Cell.val_plain c

@[simp] lemma val_put {α : Type} [Cell α] (a : α) (c : Char) : val (put a c) = c := Cell.val_put a c

@[simp] lemma val_char (c : Char) : val c = c := rfl

@[simp] lemma put_char (a c : Char) : put a c = c := rfl

@[simp] lemma plain_char (c : Char) : (Cell.plain c : Char) = c := rfl

@[simp] lemma val_pair {τ : Type} [Inhabited τ] (a : Char × τ) : val a = a.1 := rfl

@[simp] lemma put_pair {τ : Type} [Inhabited τ] (a : Char × τ) (c : Char) : put a c = (c, a.2) := rfl

/-- The characters of a text. -/
abbrev erase {α : Type} [Cell α] (text : List α) : List Char := text.map val

@[simp] lemma erase_char (text : List Char) : erase text = text := List.map_id text

/-! ### Texts -/

section

variable {α : Type} [Cell α]

/-- The newlines of a text: `"\n" * text.count("\n")`. -/
def newlines (text : List α) : List α := text.filter fun c => val c = '\n'

/-- Some characters in the place of others. -/
def write (place : List α) (text : List Char) : List α :=
  match place with
  | [] => text.map Cell.plain
  | c :: _ => text.map (put c)

/-- `text.find(pattern)` -/
def find (pattern : List Char) : List α → Option ℕ
  | [] => if pattern = [] then some 0 else none
  | c :: rest =>
    if pattern.isPrefixOf (erase (c :: rest)) then some 0 else (find pattern rest).map (· + 1)

@[simp] lemma erase_write (place : List α) (text : List Char) : erase (write place text) = text := by
  cases place with
  | nil => simp [write, Function.comp_def]
  | cons c rest => simp [write, Function.comp_def]

@[simp] lemma newlines_append (text more : List α) :
    newlines (text ++ more) = newlines text ++ newlines more := List.filter_append ..

lemma newlines_eq_nil {text : List α} (h : ∀ c ∈ text, val c ≠ '\n') : newlines text = [] := by
  unfold newlines
  rw [List.filter_eq_nil_iff]
  intro c hc
  simpa using h c hc

/-! ### Changing marks -/

section

variable {β : Type} [Cell β]

/-- A change of marks: the characters stay, and a character without a mark of its own has none again. -/
structure Remarks (g : α → β) : Prop where
  val : ∀ a, Cell.val (g a) = Cell.val a
  put : ∀ a c, g (Cell.put a c) = Cell.put (g a) c
  plain : ∀ c, g (Cell.plain c) = Cell.plain c

variable {g : α → β}

lemma Remarks.erase_map (hg : Remarks g) (text : List α) : erase (text.map g) = erase text := by
  rw [erase, List.map_map]
  exact List.map_congr_left fun a _ => hg.val a

lemma Remarks.map_newlines (hg : Remarks g) (text : List α) :
    (newlines text).map g = newlines (text.map g) := by
  unfold newlines
  rw [List.filter_map]
  simp only [Function.comp_def, hg.val]

lemma Remarks.map_write (hg : Remarks g) (place : List α) (text : List Char) :
    (write place text).map g = write (place.map g) text := by
  cases place with
  | nil => simp only [write, List.map_nil, List.map_map, Function.comp_def, hg.plain]
  | cons c rest => simp only [write, List.map_cons, List.map_map, Function.comp_def, hg.put]

lemma remarks_val : Remarks (val : α → Char) := ⟨fun _ => rfl, val_put, val_plain⟩

end

end

end CSecureBuild.PyLib.Cells
