import CSecureBuild.CLib.Memory

/-!
Standard input as a stream over a file description, and `getline` on it.

The description has an offset that a process shares with its children; the stream reads ahead of
what it hands out, in portions of any size. What a caller of `getline` sees does not depend on the
portions: `getdelim_spec` computes it from the bytes still to come. What the read-ahead does change
is where the shared offset stands, and so what happens when a child leaves through `exit`
(`Stdin.childExit`).
-/

namespace CSecureBuild.CLib.Stdio

open CSecureBuild.CLib.Memory

/-- The byte of a line end. -/
abbrev newline : UInt8 := 10

/-- Standard input of a process. A child shares its description, but takes no part in reading it here until
it leaves: a program that replaced the child is taken to leave standard input alone. -/
structure Stdin where
  /-- Everything the file description delivers, from its start. -/
  file : List UInt8
  /-- The offset of the file description, shared with the children of the process. -/
  offset : ℕ
  /-- What the stream has read and not handed out yet. -/
  buffered : List UInt8
  /-- The description is a file, not a pipe or a terminal. -/
  seekable : Bool
  /-- Behind the last byte a read fails instead of reporting the end. -/
  broken : Bool
  /-- The end-of-file indicator of the stream. -/
  eof : Bool
  deriving DecidableEq

/-- What ISO C and POSIX leave to the implementation. -/
structure LibC where
  /-- How many bytes beyond the first a `read` at an offset delivers, if there are that many. -/
  portion : ℕ → ℕ
  /-- `getline` hands out the part of a line that stands before a read error. -/
  keepsPartial : Bool
  /-- What stands in the line buffer behind a line and its NUL, from the old buffer and the line. -/
  spare : Option (List UInt8) → List UInt8 → List UInt8
  /-- What a `getline` that returns -1 makes of the line buffer. -/
  leftover : Option (List UInt8) → Option (List UInt8)
  /-- `long` has 64 bits; otherwise it has 32. -/
  long64 : Bool
  /-- How `printf` writes a pointer, from what stands between `%` and `p`. -/
  address : List UInt8 → List UInt8
  /-- What a `printf` prints that fails because an `int` cannot count it, from its format and the string
  behind it. -/
  overlong : List UInt8 → List UInt8 → List UInt8

/-- The bytes still to come: those read ahead, then those behind the offset. -/
def Stdin.pending (st : Stdin) : List UInt8 := st.buffered ++ st.file.drop st.offset

/-- A fresh stream over a file description at its start. -/
def Stdin.start (file : List UInt8) (seekable broken : Bool) : Stdin :=
  ⟨file, 0, [], seekable, broken, false⟩

/-- One `read` into an empty stream buffer. -/
def Stdin.fill (lib : LibC) (st : Stdin) : Stdin :=
  let got := (st.file.drop st.offset).take (lib.portion st.offset + 1)
  { st with buffered := got, offset := st.offset + got.length }

/-- A text up to and with its first line end, and the rest. -/
def splitLine : List UInt8 → Option (List UInt8 × List UInt8)
  | [] => none
  | c :: rest =>
    if c = newline then some ([c], rest)
    else (splitLine rest).map fun p => (c :: p.1, p.2)

lemma length_fill (lib : LibC) {st : Stdin} (h : st.offset < st.file.length) :
    st.file.length - (st.fill lib).offset < st.file.length - st.offset := by
  unfold Stdin.fill
  simp only [List.length_take, List.length_drop]
  omega

/-- The bytes of the next line, read portion by portion behind those in `acc`, and whether a line
end was found before the input stopped. -/
def Stdin.collect (lib : LibC) (st : Stdin) (acc : List UInt8) : List UInt8 × Bool × Stdin :=
  match splitLine st.buffered with
  | some (line, rest) => (acc ++ line, true, { st with buffered := rest })
  | none =>
    if h : st.offset < st.file.length then
      have := length_fill lib h
      (st.fill lib).collect lib (acc ++ st.buffered)
    else (acc ++ st.buffered, false, { st with buffered := [], eof := !st.broken })
termination_by st.file.length - st.offset

/-- `getdelim` up to a line end: the bytes of the line, or nothing when it returns -1. -/
def Stdin.getdelim (lib : LibC) (st : Stdin) : Option (List UInt8) × Stdin :=
  match st.collect lib [] with
  | (line, found, st') =>
    if found then (some line, st')
    else if line = [] ∨ (st.broken = true ∧ lib.keepsPartial = false) then (none, st')
    else (some line, st')

/-- What `getline` leaves behind: the number of bytes it read unless it returned -1, the line buffer
with its size, and the stream. -/
structure Getline where
  bytesRead : Option ℕ
  buffer : Option (List UInt8)
  stdin : Stdin

/-- `getline`. The buffer holds the line, a NUL, and as many bytes more as the implementation
likes. -/
def getline (lib : LibC) (buffer : Option (List UInt8)) (st : Stdin) : Getline :=
  match st.getdelim lib with
  | (some line, st') => ⟨some line.length, some (line ++ 0 :: lib.spare buffer line), st'⟩
  | (none, st') => ⟨none, lib.leftover buffer, st'⟩

/-- A child process with a copy of the stream leaves through `exit`: on a seekable description the
shared offset moves back over the bytes that were read ahead. -/
def Stdin.childExit (st : Stdin) : Stdin :=
  if st.seekable = true ∧ st.buffered.length ≤ st.offset then
    { st with offset := st.offset - st.buffered.length }
  else st

/-! ### Lines of a text -/

lemma splitLine_some {text line rest : List UInt8} (h : splitLine text = some (line, rest)) :
    text = line ++ rest ∧ ∃ body, line = body ++ [newline] ∧ newline ∉ body := by
  induction text generalizing line with
  | nil => cases h
  | cons c text ih =>
    unfold splitLine at h
    by_cases hc : c = newline
    · rw [if_pos hc] at h
      obtain ⟨rfl, rfl⟩ := Prod.mk.inj (Option.some.inj h)
      exact ⟨rfl, [], by simp [hc], by simp⟩
    · rw [if_neg hc] at h
      cases hr : splitLine text with
      | none => rw [hr] at h; cases h
      | some p =>
        obtain ⟨l, r⟩ := p
        rw [hr] at h
        obtain ⟨rfl, rfl⟩ := Prod.mk.inj (Option.some.inj h)
        obtain ⟨rfl, body, rfl, hbody⟩ := ih hr
        exact ⟨rfl, c :: body, rfl, by simp [Ne.symm hc, hbody]⟩

lemma splitLine_none {text : List UInt8} (h : splitLine text = none) : newline ∉ text := by
  induction text with
  | nil => simp
  | cons c text ih =>
    unfold splitLine at h
    by_cases hc : c = newline
    · rw [if_pos hc] at h; cases h
    · rw [if_neg hc, Option.map_eq_none_iff] at h
      simp [Ne.symm hc, ih h]

lemma splitLine_append {text line rest : List UInt8} (h : splitLine text = some (line, rest))
    (more : List UInt8) : splitLine (text ++ more) = some (line, rest ++ more) := by
  induction text generalizing line with
  | nil => cases h
  | cons c text ih =>
    unfold splitLine at h
    rw [List.cons_append]
    unfold splitLine
    by_cases hc : c = newline
    · rw [if_pos hc] at h ⊢
      obtain ⟨rfl, rfl⟩ := Prod.mk.inj (Option.some.inj h)
      rfl
    · rw [if_neg hc] at h ⊢
      cases hr : splitLine text with
      | none => rw [hr] at h; cases h
      | some p =>
        obtain ⟨l, r⟩ := p
        rw [hr] at h
        obtain ⟨rfl, rfl⟩ := Prod.mk.inj (Option.some.inj h)
        rw [ih hr]
        rfl

lemma splitLine_append_of_notMem {text : List UInt8} (h : newline ∉ text) (more : List UInt8) :
    splitLine (text ++ more) = (splitLine more).map fun p => (text ++ p.1, p.2) := by
  induction text with
  | nil => simp
  | cons c text ih =>
    obtain ⟨hc, ht⟩ := not_or.mp (mt List.mem_cons.mpr h)
    rw [List.cons_append]
    conv_lhs => unfold splitLine
    rw [if_neg (Ne.symm hc), ih ht, Option.map_map]
    rfl

/-! ### What `getline` delivers -/

lemma pending_fill {lib : LibC} {st : Stdin} :
    (st.fill lib).pending = st.file.drop st.offset := by
  unfold Stdin.pending Stdin.fill
  simp only [List.length_take, List.length_drop]
  conv_rhs => rw [← List.take_append_drop (lib.portion st.offset + 1) (st.file.drop st.offset)]
  rw [List.drop_drop]
  congr 1
  by_cases hle : lib.portion st.offset + 1 ≤ st.file.length - st.offset
  · rw [Nat.min_eq_left hle]
  · rw [List.drop_of_length_le (by omega), List.drop_of_length_le (by omega)]

/-- The next line does not depend on the portions it is read in. -/
theorem collect_spec (lib : LibC) (st : Stdin) (acc : List UInt8) :
    ∃ st', (st'.file = st.file ∧ st'.seekable = st.seekable ∧ st'.broken = st.broken) ∧
      match splitLine st.pending with
      | some (line, rest) => st.collect lib acc = (acc ++ line, true, st') ∧ st'.pending = rest ∧
          st'.eof = st.eof
      | none => st.collect lib acc = (acc ++ st.pending, false, st') ∧ st'.pending = [] ∧
          st'.eof = !st.broken := by
  induction hn : st.file.length - st.offset using Nat.strong_induction_on generalizing st acc with
  | _ n ih =>
    unfold Stdin.collect
    cases hs : splitLine st.buffered with
    -- the line ends in the buffer
    | some p =>
      obtain ⟨line, rest⟩ := p
      refine ⟨{ st with buffered := rest }, ⟨rfl, rfl, rfl⟩, ?_⟩
      unfold Stdin.pending
      rw [splitLine_append hs]
      exact ⟨rfl, rfl, rfl⟩
    | none =>
      have hnl := splitLine_none hs
      by_cases hoff : st.offset < st.file.length
      · -- it does not, and `read` gives more: the buffer is part of the line
        obtain ⟨st', hsame, h⟩ := ih _ (hn ▸ length_fill lib hoff) (st.fill lib)
          (acc ++ st.buffered) rfl
        refine ⟨st', hsame, ?_⟩
        have hp : st.pending = st.buffered ++ (st.fill lib).pending := by rw [pending_fill]; rfl
        rw [hp, splitLine_append_of_notMem hnl]
        simp only [hoff, dite_true]
        cases hl : splitLine (st.fill lib).pending with
        | some p =>
          rw [hl] at h
          simp only [Option.map_some]
          rw [h.1, List.append_assoc]
          exact ⟨rfl, h.2⟩
        | none =>
          rw [hl] at h
          simp only [Option.map_none]
          rw [h.1, List.append_assoc]
          exact ⟨rfl, h.2⟩
      · -- nor is there more: what is in the buffer is the last line
        have hd : st.file.drop st.offset = [] := List.drop_of_length_le (by omega)
        have hp : st.pending = st.buffered := by unfold Stdin.pending; rw [hd, List.append_nil]
        refine ⟨{ st with buffered := [], eof := !st.broken }, ⟨rfl, rfl, rfl⟩, ?_⟩
        rw [hp, hs]
        rw [dif_neg hoff]
        refine ⟨rfl, ?_, rfl⟩
        unfold Stdin.pending
        rw [List.nil_append, hd]

/-- The next line of a text and what is left of it: up to a line end, or the rest of the text, which
is lost on an implementation that drops it when the read behind it fails. -/
def nextLine (drops : Bool) (text : List UInt8) : Option (List UInt8 × List UInt8) :=
  match splitLine text with
  | some p => some p
  | none => if text = [] ∨ drops = true then none else some (text, [])

/-- The implementation drops the last line of this stream when no line end stands behind it. -/
def Stdin.drops (lib : LibC) (st : Stdin) : Bool := st.broken && !lib.keepsPartial

/-- **What `getdelim` delivers**, from the bytes still to come. -/
theorem getdelim_spec (lib : LibC) (st : Stdin) :
    ∃ st', (st'.file = st.file ∧ st'.seekable = st.seekable ∧ st'.broken = st.broken) ∧
      match nextLine (st.drops lib) st.pending with
      | some (line, rest) => st.getdelim lib = (some line, st') ∧ st'.pending = rest
      | none => st.getdelim lib = (none, st') ∧ st'.eof = !st.broken := by
  obtain ⟨st', hsame, h⟩ := collect_spec lib st []
  refine ⟨st', hsame, ?_⟩
  unfold nextLine Stdin.getdelim
  cases hs : splitLine st.pending with
  | some p =>
    rw [hs] at h
    rw [h.1]
    exact ⟨rfl, h.2.1⟩
  | none =>
    rw [hs] at h
    obtain ⟨h1, h2, h3⟩ := h
    rw [h1, List.nil_append]
    have hiff : (st.drops lib = true) ↔ (st.broken = true ∧ lib.keepsPartial = false) := by
      simp [Stdin.drops]
    by_cases hc : st.pending = [] ∨ st.drops lib = true
    · have hc' : st.pending = [] ∨ (st.broken = true ∧ lib.keepsPartial = false) := by rwa [← hiff]
      simp only [hc, hc', if_true, Bool.false_eq_true, if_false]
      exact ⟨trivial, h3⟩
    · have hc' : ¬ (st.pending = [] ∨ (st.broken = true ∧ lib.keepsPartial = false)) := by
        rwa [← hiff]
      simp only [hc, hc', Bool.false_eq_true, if_false]
      exact ⟨trivial, h2⟩

lemma nextLine_ne_nil {drops : Bool} {text line rest : List UInt8}
    (h : nextLine drops text = some (line, rest)) : line ≠ [] ∧ text = line ++ rest := by
  unfold nextLine at h
  cases hs : splitLine text with
  | some p =>
    rw [hs] at h
    cases Option.some.inj h
    obtain ⟨htext, body, hbody, -⟩ := splitLine_some hs
    exact ⟨by rw [hbody]; simp, htext⟩
  | none =>
    rw [hs] at h
    by_cases hc : text = [] ∨ drops = true
    · simp [hc] at h
    · simp only [hc, if_false, Option.some.injEq, Prod.mk.injEq] at h
      obtain ⟨rfl, rfl⟩ := h
      exact ⟨fun h0 => hc (Or.inl h0), by simp⟩

lemma nextLine_length {drops : Bool} {text line rest : List UInt8}
    (h : nextLine drops text = some (line, rest)) : rest.length < text.length := by
  obtain ⟨hne, rfl⟩ := nextLine_ne_nil h
  have := List.length_pos_iff.mpr hne
  rw [List.length_append]
  omega

lemma nextLine_newline {drops : Bool} {text line rest : List UInt8}
    (h : nextLine drops text = some (line, rest)) :
    newline ∉ line ∨ ∃ body, line = body ++ [newline] ∧ newline ∉ body := by
  unfold nextLine at h
  cases hs : splitLine text with
  | some p =>
    rw [hs] at h
    cases Option.some.inj h
    exact Or.inr (splitLine_some hs).2
  | none =>
    rw [hs] at h
    by_cases hc : text = [] ∨ drops = true
    · simp [hc] at h
    · simp only [hc, if_false, Option.some.injEq, Prod.mk.injEq] at h
      obtain ⟨rfl, rfl⟩ := h
      exact Or.inl (splitLine_none hs)

end CSecureBuild.CLib.Stdio
