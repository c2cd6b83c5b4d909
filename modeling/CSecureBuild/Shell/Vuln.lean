import CSecureBuild.CLib.Printf
import CSecureBuild.Shell.Hardened

/-!
`src/vuln_shell.c.bak`, function by function: the shell before it was hardened. Its defects are here
as they are in the source. `strcpy` overflows (`outOfBounds`), the number of recorded lines overflows
(`signedOverflow`), a user's format is handed to `printf` (`badFormat`) and a user's number to `atoi`
(`unrepresentable`), copies are never released, and the flags of `slot_used` start as whatever the memory
held: the parameter `garbage`. An `int` has no trap values, so reading such a flag is no fault.
-/

namespace CSecureBuild.Shell.Vuln

open CSecureBuild.CLib.Memory CSecureBuild.CLib.Tokens CSecureBuild.CLib.Stdio
open CSecureBuild.CLib.Numbers CSecureBuild.CLib.Printf CSecureBuild.Shell.Process

/-- The globals of the program, the heap blocks `strdup` returned, the number of `fork` calls so far
and what the session has done so far. -/
structure State where
  lastCommand : CharArray historySize
  history : Fin historySlots → Option ℕ
  slotUsed : Fin historySlots → ℤ
  historyCount : ℕ
  heap : Heap
  forks : ℕ
  out : List Event

/-- Printing a text on standard output. -/
def State.printed (s : State) (origin : Origin) (text : List UInt8) : State :=
  { s with out := s.out ++ [.printed origin text] }

/-- The globals after `history_init`: `malloc` leaves in the flags what was there. -/
def historyInit (garbage : Fin historySlots → ℤ) : State where
  lastCommand := CharArray.zeroed historySize
  history := fun _ => none
  slotUsed := garbage
  historyCount := 0
  heap := Heap.empty
  forks := 0
  out := []

/-- `record_history`. -/
def recordHistory (s : State) (input : List UInt8) : Except Fault State := do
  let text ← stringOf input
  let lastCommand ← s.lastCommand.strcpy text
  let slot ← index historySlots (s.historyCount % historySlots)
  let (copy, heap) ← s.heap.strdup input
  if (s.historyCount : ℤ) = intMax then .error .signedOverflow
  else
    pure
      { s with
        lastCommand
        heap
        history := Function.update s.history slot (some copy)
        slotUsed := Function.update s.slotUsed slot 1
        historyCount := s.historyCount + 1 }

/-- `show_history`. -/
def showHistory (lib : LibC) (s : State) (format : List UInt8) : Except Fault State := do
  let last ← stringOf s.lastCommand.bytes
  let text ← printf lib format last
  pure (s.printed .history text)

/-- `recall_slot`. -/
def recallSlot (s : State) (slot : ℤ) : Except Fault State :=
  if slot < 0 ∨ slot ≥ historySlots then
    pure (s.printed .recall (ascii "recall: slot out of range"))
  else do
    let i ← index historySlots slot.toNat
    if s.slotUsed i = 0 then pure (s.printed .recall (ascii "recall: empty slot"))
    else
      match s.history i with
      | none => pure (s.printed .recall (ascii "recall: empty slot"))
      | some p => do
        let bytes ← s.heap.load p
        let text ← stringOf bytes
        pure (s.printed .recall text)

/-- The loop of `parse_input`. One turn is the `strtok_r` call, the test of the loop and the body; a
line with too many tokens is cut. -/
def parseLoop (buffer : List UInt8) (args : Args) (argCount pos : ℕ) :
    Except Fault (List UInt8 × Args) :=
  match strtokR blank buffer pos with
  | .error fault => .error fault
  | .ok (none, buffer, _) => do
    let i ← index maxArgs argCount
    pure (buffer, Function.update args i .null)
  | .ok (some token, buffer, pos) =>
    if h : argCount < maxArgs - 1 then
      parseLoop buffer (Function.update args ⟨argCount, Nat.lt_of_lt_pred h⟩ (.pointer token)) (argCount + 1) pos
    else do
      let i ← index maxArgs argCount
      pure (buffer, Function.update args i .null)
termination_by maxArgs - argCount

/-- `parse_input`: the line buffer cut into tokens, and the pointers. -/
def parseInput (input : List UInt8) (args : Args) : Except Fault (List UInt8 × Args) :=
  parseLoop input args 0 0

/-- The child's side of `execute_command`. -/
def runChild (argv : List (List UInt8)) : Execvp → List Event
  | .replaced => [.execvp argv]
  | .failed => [.execvp argv, .reported (ascii "execvp failed"), .childExit 1]

/-! ### `main` -/

/-- The locals of `main` and the state of the process. -/
structure Main where
  shell : State
  stdin : Stdin
  inputBuffer : Option (List UInt8)
  /-- The loop was left by `break`, or the process by `exit`. -/
  left : Bool
  status : ℕ

/-- `main` in front of its loop. -/
def start (garbage : Fin historySlots → ℤ) (stdin : Stdin) : Main :=
  ⟨historyInit garbage, stdin, none, false, 0⟩

/-- `execute_command`. A child that cannot replace its program leaves through `exit`, and so does the
shell when there is no child; a program that replaced the child is taken to leave standard input alone. -/
def executeCommand (env : Env) (m : Main) (buffer : List UInt8) (args : Args) :
    Except Fault Main := do
  match ← readEntry buffer args 0 with
  | none => pure m
  | some _ =>
    let s := { m.shell with forks := m.shell.forks + 1 }
    match env m.shell.forks with
    | .failed =>
      let s := { s with out := s.out ++ [.reported (ascii "fork failed")] }
      pure { m with shell := s, left := true, status := 1 }
    | .child execvp _ => do
      let argv ← readArgv buffer args 0
      pure
        { m with
          shell := { s with out := s.out ++ runChild argv execvp }
          stdin := match execvp with
            | .replaced => m.stdin
            | .failed => m.stdin.childExit }

/-- The loop body from the line in the buffer on. -/
def runLine (lib : LibC) (env : Env) (m : Main) (buffer : List UInt8) : Except Fault Main := do
  let length ← strlen buffer
  if length = 0 then pure { m with inputBuffer := some buffer }
  else do
    let s ← recordHistory m.shell buffer
    let (buffer, args) ← parseInput buffer fun _ => .indeterminate
    let m := { m with shell := s, inputBuffer := some buffer }
    let name ← readEntry buffer args 0
    if name = some (ascii "exit") then pure { m with left := true }
    else if name = some (ascii "history") then do
      let arg ← readEntry buffer args 1
      let s ← showHistory lib s (arg.getD (ascii "%s"))
      pure { m with shell := s }
    else if name = some (ascii "recall") then do
      let arg ← readEntry buffer args 1
      let slot ← (arg.map atoi).getD (pure 0)
      let s ← recallSlot s slot
      pure { m with shell := s }
    else executeCommand env m buffer args

/-- The body of the loop of `main`. -/
def loopBody (lib : LibC) (env : Env) (m : Main) : Except Fault Main :=
  let s := { m.shell with out := m.shell.out ++ [prompt] }
  let got := getline lib m.inputBuffer m.stdin
  let m := { m with shell := s, stdin := got.stdin, inputBuffer := got.buffer }
  match got.bytesRead with
  | none => pure { m with shell := s.printed .main (ascii "\nExiting..."), left := true }
  | some bytesRead =>
    match got.buffer with
    | none => .error .indeterminate
    | some buffer => runLine lib env m (Hardened.chomp buffer bytesRead)

/-- One turn of the loop of `main`, if there is one more. -/
def turn (lib : LibC) (env : Env) (m : Main) : Except Fault Main :=
  if m.left then pure m else loopBody lib env m

/-- `n` turns of the loop of `main`, or fewer if it ends before. -/
def turns (lib : LibC) (env : Env) : ℕ → Main → Except Fault Main
  | 0, m => pure m
  | n + 1, m => do
    let m ← turns lib env n m
    turn lib env m

end CSecureBuild.Shell.Vuln
