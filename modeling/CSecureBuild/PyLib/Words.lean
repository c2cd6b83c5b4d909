import Mathlib

/-!
The words of a text: the longest runs of characters of a class, with the characters between them as they
are. A list of tokens is `Valid` if it is what its text is cut into (`toks_render`); so a text in which
words are put in the place of words has these words.
-/

namespace CSecureBuild.PyLib.Words

/-- A word, or a character between words. -/
inductive Tok where
  | sep (c : Char)
  | word (w : List Char)
  deriving DecidableEq

/-- The text of a token. -/
def Tok.text : Tok → List Char
  | .sep c => [c]
  | .word w => w

/-- The text of tokens. -/
def render (ts : List Tok) : List Char := ts.flatMap Tok.text

@[simp] lemma render_nil : render [] = [] := rfl

@[simp] lemma render_cons (t : Tok) (ts : List Tok) : render (t :: ts) = t.text ++ render ts := rfl

@[simp] lemma render_append (ts ts' : List Tok) : render (ts ++ ts') = render ts ++ render ts' :=
  List.flatMap_append

/-- What a list of tokens begins with is no word. -/
def Open (ts : List Tok) : Prop := ∀ w, ts.head? ≠ some (.word w)

lemma open_nil : Open [] := fun _ h => by cases h

lemma open_sep (c : Char) (ts : List Tok) : Open (.sep c :: ts) := fun _ h => by cases h

section

variable (p : Char → Bool)

/-- The words of a text, and the characters between them. -/
def toks : List Char → List Tok
  | [] => []
  | c :: rest =>
    if p c then
      match toks rest with
      | .word w :: ts => .word (c :: w) :: ts
      | ts => .word [c] :: ts
    else .sep c :: toks rest

/-- Tokens as a text is cut into them. -/
def Valid : List Tok → Prop
  | [] => True
  | .sep c :: ts => p c = false ∧ Valid ts
  | .word w :: ts => w ≠ [] ∧ (∀ c ∈ w, p c = true) ∧ Open ts ∧ Valid ts

variable {p}

@[simp] lemma toks_nil : toks p [] = [] := rfl

lemma toks_sep {c : Char} (h : p c = false) (rest : List Char) :
    toks p (c :: rest) = .sep c :: toks p rest := by
  rw [toks, if_neg (by simp [h])]

lemma toks_char {c : Char} (h : p c = true) {rest : List Char} (hopen : Open (toks p rest)) :
    toks p (c :: rest) = .word [c] :: toks p rest := by
  rw [toks, if_pos h]
  split
  · next w ts heq => exact absurd (by rw [heq]; rfl) (hopen w)
  · rfl

lemma toks_word {w rest : List Char} (hne : w ≠ []) (hw : ∀ c ∈ w, p c = true)
    (hopen : Open (toks p rest)) : toks p (w ++ rest) = .word w :: toks p rest := by
  induction w with
  | nil => exact absurd rfl hne
  | cons c w ih =>
    have hc := hw c List.mem_cons_self
    cases w with
    | nil => exact toks_char hc hopen
    | cons d w =>
      have ih := ih (List.cons_ne_nil d w) fun x hx => hw x (List.mem_cons_of_mem c hx)
      rw [List.cons_append, toks, if_pos hc, ih]

/-- What the tokens of a text begin with. -/
lemma open_toks {rest : List Char} (h : ∀ c ∈ rest.head?, p c = false) : Open (toks p rest) := by
  cases rest with
  | nil => exact open_nil
  | cons c rest =>
    rw [toks_sep (h c rfl)]
    exact open_sep c _

lemma head_render {ts : List Tok} (hts : Valid p ts) (hopen : Open ts) :
    ∀ c ∈ (render ts).head?, p c = false := by
  cases ts with
  | nil => exact fun c hc => by cases hc
  | cons t ts =>
    cases t with
    | sep d =>
      intro c hc
      obtain rfl : d = c := Option.some.inj hc
      exact hts.1
    | word w => exact absurd rfl (hopen w)

lemma takeWhile_run {w rest : List Char} (hw : ∀ c ∈ w, p c = true)
    (hrest : ∀ c ∈ rest.head?, p c = false) : (w ++ rest).takeWhile p = w := by
  have hnil : rest.takeWhile p = [] := by
    cases rest with
    | nil => rfl
    | cons c rest => exact List.takeWhile_cons_of_neg (by simp [hrest c rfl])
  rw [List.takeWhile_append_of_pos hw, hnil, List.append_nil]

@[simp] theorem render_toks (text : List Char) : render (toks p text) = text := by
  induction text with
  | nil => rfl
  | cons c rest ih =>
    unfold toks
    split_ifs
    · split
      · next w ts heq =>
        rw [heq] at ih
        rw [← ih]
        rfl
      · rw [render_cons, ih]
        rfl
    · rw [render_cons, ih]
      rfl

theorem valid_toks (text : List Char) : Valid p (toks p text) := by
  induction text with
  | nil => trivial
  | cons c rest ih =>
    unfold toks
    split_ifs with hc
    · split
      · next w ts heq =>
        rw [heq] at ih
        obtain ⟨-, hw, hopen, hts⟩ := ih
        exact ⟨List.cons_ne_nil c w, List.forall_mem_cons.mpr ⟨hc, hw⟩, hopen, hts⟩
      · next hopen => exact ⟨List.cons_ne_nil c [], by simpa using hc, fun w h => by
          obtain ⟨ts, hts⟩ : ∃ ts, toks p rest = .word w :: ts := List.head?_eq_some_iff.mp h
          exact hopen w ts hts, ih⟩
    · exact ⟨by simpa using hc, ih⟩

/-- **Valid tokens are the tokens of their text.** -/
theorem toks_render {ts : List Tok} (h : Valid p ts) : toks p (render ts) = ts := by
  induction ts with
  | nil => rfl
  | cons t ts ih =>
    cases t with
    | sep c => rw [render_cons, Tok.text, List.singleton_append, toks_sep h.1, ih h.2]
    | word w =>
      obtain ⟨hne, hw, hopen, hts⟩ := h
      rw [render_cons, Tok.text, toks_word hne hw, ih hts]
      rwa [ih hts]

lemma valid_append {ts ts' : List Tok} {c : Char} (h : Valid p ts) (hc : p c = false)
    (h' : Valid p ts') : Valid p (ts ++ .sep c :: ts') := by
  induction ts with
  | nil => exact ⟨hc, h'⟩
  | cons t ts ih =>
    cases t with
    | sep d => exact ⟨h.1, ih h.2⟩
    | word w =>
      obtain ⟨hne, hw, hopen, hts⟩ := h
      refine ⟨hne, hw, fun v hv => ?_, ih hts⟩
      cases ts with
      | nil => cases hv
      | cons t ts => exact hopen v hv

/-- No word goes over a character between words. -/
theorem toks_append {c : Char} (hc : p c = false) (x y : List Char) :
    toks p (x ++ c :: y) = toks p x ++ .sep c :: toks p y := by
  have h := toks_render (valid_append (valid_toks (p := p) x) hc (valid_toks y))
  rwa [render_append, render_cons, render_toks, render_toks] at h

end

end CSecureBuild.PyLib.Words
