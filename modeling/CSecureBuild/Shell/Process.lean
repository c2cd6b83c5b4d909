import CSecureBuild.CLib.Stdio
import CSecureBuild.CLib.Tokens

/-!
What both shells share: the sizes they are compiled with, what the kernel answers to `fork`,
`execvp` and `waitpid`, what a run of a shell does that can be seen from outside, and the array of
argument pointers a line is cut into.
-/

namespace CSecureBuild.Shell.Process

open CSecureBuild.CLib.Memory CSecureBuild.CLib.Tokens

/-- `MAX_ARGS`. -/
abbrev maxArgs : ℕ := 64

/-- `HISTORY_SIZE`. -/
abbrev historySize : ℕ := 32

/-- `HISTORY_SLOTS`. -/
abbrev historySlots : ℕ := 4

/-! ### The kernel's answers -/

/-- What the calls of `waitpid` for one child return, up to the first that does not report `EINTR`.
-/
inductive Waitpid where
  | interrupted (next : Waitpid)
  | reaped
  | failed
  deriving DecidableEq

/-- Whether `execvp` replaced the child's program. -/
inductive Execvp where
  | replaced
  | failed
  deriving DecidableEq

/-- What `fork` returns in the parent, and what happens to the child if there is one. -/
inductive Fork where
  | failed
  | child (execvp : Execvp) (waitpid : Waitpid)
  deriving DecidableEq

/-- The answers to the `fork` calls of a session, in order. -/
abbrev Env := ℕ → Fork

/-! ### What a session does -/

/-- The part of the program that prints a text on standard output. -/
inductive Origin where
  | main
  | history
  | recall
  deriving DecidableEq

/-- What can be seen of a session. -/
inductive Event where
  /-- A text on standard output. -/
  | printed (origin : Origin) (text : List UInt8)
  /-- A message of `perror`. -/
  | reported (text : List UInt8)
  /-- A child hands an argument vector to `execvp`; the null pointer behind it is left out. -/
  | execvp (argv : List (List UInt8))
  /-- A child that could not replace its program ends. -/
  | childExit (status : ℕ)
  deriving DecidableEq

/-- The prompt. -/
def prompt : Event := .printed .main (ascii "c-sec> ")

/-- The texts `recall` printed, in order. -/
def recalls (out : List Event) : List (List UInt8) :=
  out.filterMap fun
    | .printed .recall text => some text
    | _ => none

/-- The argument vectors handed to `execvp`, in order. -/
def execs (out : List Event) : List (List (List UInt8)) :=
  out.filterMap fun
    | .execvp argv => some argv
    | _ => none

/-! ### Argument pointers -/

/-- An entry of `parsed_args`: a pointer into the line buffer is its offset. -/
inductive Entry where
  /-- The entry holds whatever the memory held. -/
  | indeterminate
  | null
  | pointer (offset : ℕ)
  deriving DecidableEq

/-- The array `parsed_args`. -/
abbrev Args := Fin maxArgs → Entry

/-- The delimiters of `strtok_r`: space and tab. -/
def blank (c : UInt8) : Bool := decide (c = 32 ∨ c = 9)

lemma blank_zero : blank 0 = false := rfl

/-- Reading an entry, which must hold a value: the string it points to, or nothing for a null
pointer. -/
def readEntry (buffer : List UInt8) (args : Args) (i : ℕ) : Except Fault (Option (List UInt8)) := do
  let i ← index maxArgs i
  match args i with
  | .indeterminate => .error .indeterminate
  | .null => pure none
  | .pointer offset => do
    let text ← stringOf (buffer.drop offset)
    pure (some text)

/-- The vector that starts at an entry and ends at a null pointer. -/
def readArgv (buffer : List UInt8) (args : Args) (i : ℕ) : Except Fault (List (List UInt8)) :=
  if i < maxArgs then do
    match ← readEntry buffer args i with
    | none => pure []
    | some arg => do
      let rest ← readArgv buffer args (i + 1)
      pure (arg :: rest)
  else .error .outOfBounds
termination_by maxArgs - i

/-- The entries of an array from `i` on are a vector and the null pointer behind it. -/
def Holds (buffer : List UInt8) (args : Args) (i : ℕ) : List (List UInt8) → Prop
  | [] => readEntry buffer args i = .ok none
  | arg :: argv => readEntry buffer args i = .ok (some arg) ∧ Holds buffer args (i + 1) argv

lemma readEntry_lt {buffer : List UInt8} {args : Args} {i : ℕ} {e : Option (List UInt8)}
    (h : readEntry buffer args i = .ok e) : i < maxArgs := by
  by_contra hi
  unfold readEntry index at h
  rw [dif_neg hi] at h
  cases h

/-- Whoever reads a vector from an array that holds it gets the vector. -/
theorem readArgv_eq {buffer : List UInt8} {args : Args} {i : ℕ} {argv : List (List UInt8)}
    (h : Holds buffer args i argv) : readArgv buffer args i = .ok argv := by
  induction argv generalizing i with
  | nil =>
    have h : readEntry buffer args i = .ok none := h
    unfold readArgv
    rw [if_pos (readEntry_lt h), h]
    rfl
  | cons arg argv ih =>
    obtain ⟨h, hrest⟩ := h
    unfold readArgv
    rw [if_pos (readEntry_lt h), h, ok_bind, ih hrest]
    rfl

end CSecureBuild.Shell.Process
