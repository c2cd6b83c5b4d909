import CSecureBuild.CLib.Numbers
import CSecureBuild.Shell.Process

/-!
`src/hardened_shell.c`, function by function. Allocations succeed, as the properties of the shell
assume; everything else the functions do is here, undefined behaviour included (`Fault`).
-/

namespace CSecureBuild.Shell.Hardened

open CSecureBuild.CLib.Memory CSecureBuild.CLib.Tokens CSecureBuild.CLib.Stdio
open CSecureBuild.CLib.Numbers CSecureBuild.Shell.Process

/-- The globals of the program, the heap blocks `strdup` returned, the number of `fork` calls so far
and what the session has done so far. -/
structure State where
  lastCommand : CharArray historySize
  history : Fin historySlots → Option ℕ
  slotUsed : Fin historySlots → ℤ
  historyNext : ℕ
  heap : Heap
  forks : ℕ
  out : List Event

/-- Printing a text on standard output. -/
def State.printed (s : State) (origin : Origin) (text : List UInt8) : State :=
  { s with out := s.out ++ [.printed origin text] }

/-- `perror`. -/
def State.reported (s : State) (text : List UInt8) : State :=
  { s with out := s.out ++ [.reported text] }

/-- The globals after `history_init`: statics start zeroed, and so does what `calloc` returns. -/
def historyInit : State where
  lastCommand := CharArray.zeroed historySize
  history := fun _ => none
  slotUsed := fun _ => 0
  historyNext := 0
  heap := Heap.empty
  forks := 0
  out := []

/-- `wipe_and_free`. -/
def wipeAndFree (heap : Heap) (text : Option ℕ) : Except Fault Heap :=
  match text with
  | none => pure heap
  | some p => do
    let bytes ← heap.load p
    let length ← strlen bytes
    let wiped ← explicitBzero bytes length
    let heap ← heap.store p wiped
    heap.free p

/-- The `last_command` update of `record_history`. -/
def keepPrevious (s : State) (previous : Option ℕ) : Except Fault (CharArray historySize) :=
  match previous with
  | none => pure s.lastCommand
  | some p => do
    let bytes ← s.heap.load p
    let text ← stringOf bytes
    s.lastCommand.snprintf text

/-- `record_history`. -/
def recordHistory (s : State) (input : List UInt8) : Except Fault State := do
  let before ← index historySlots ((s.historyNext + historySlots - 1) % historySlots)
  let lastCommand ← keepPrevious s (s.history before)
  let slot ← index historySlots s.historyNext
  -- the ring wraps, so this slot may already own a string
  let heap ← wipeAndFree s.heap (s.history slot)
  let (copy, heap) ← heap.strdup input
  pure
    { s with
      lastCommand
      heap
      history := Function.update s.history slot (some copy)
      slotUsed := Function.update s.slotUsed slot 1
      historyNext := (slot + 1) % historySlots }

/-- `show_history`. -/
def showHistory (s : State) : Except Fault State := do
  let text ← stringOf s.lastCommand.bytes
  pure (s.printed .history text)

/-- `recall_slot`. -/
def recallSlot (s : State) (slot : ℤ) : Except Fault State :=
  if slot < 0 ∨ slot ≥ historySlots then
    pure (s.printed .recall (ascii "recall: slot out of range"))
  else do
    let i ← index historySlots slot.toNat
    if s.slotUsed i = 0 then pure (s.printed .recall (ascii "recall: empty slot"))
    else
      match s.history i with
      | none => pure (s.printed .recall (ascii "recall: empty slot"))
      | some p => do
        let bytes ← s.heap.load p
        let text ← stringOf bytes
        pure (s.printed .recall text)

/-- `parse_int`: whether the text is a number, and what is in `*out` afterwards. -/
def parseInt (lib : LibC) (text : List UInt8) (out : ℤ) : Bool × ℤ :=
  let r := strtol lib.long64 text
  if r.stop = 0 ∨ r.stop ≠ text.length ∨ r.erange = true ∨ r.value < intMin ∨ r.value > intMax then
    (false, out)
  else (true, r.value)

/-- The loop of `parse_input`. One turn is the `strtok_r` call, the test of the loop and the body. -/
def parseLoop (buffer : List UInt8) (args : Args) (argCount pos : ℕ) :
    Except Fault (Bool × List UInt8 × Args) :=
  match strtokR blank buffer pos with
  | .error fault => .error fault
  | .ok (none, buffer, _) => do
    let i ← index maxArgs argCount
    pure (true, buffer, Function.update args i .null)
  | .ok (some token, buffer, pos) =>
    if argCount = maxArgs - 1 then pure (false, buffer, args)
    else if h : argCount < maxArgs then
      parseLoop buffer (Function.update args ⟨argCount, h⟩ (.pointer token)) (argCount + 1) pos
    else .error .outOfBounds
termination_by maxArgs - argCount

/-- `parse_input`: whether the line fits, the line buffer cut into tokens, and the pointers. -/
def parseInput (input : List UInt8) (args : Args) : Except Fault (Bool × List UInt8 × Args) :=
  parseLoop input args 0 0

/-- The child's side of `execute_command`. -/
def runChild (argv : List (List UInt8)) : Execvp → List Event
  | .replaced => [.execvp argv]
  | .failed => [.execvp argv, .reported (ascii "execvp failed"), .childExit 127]

/-- The `waitpid` loop of `execute_command`. -/
def awaitChild : Waitpid → List Event
  | .interrupted next => awaitChild next
  | .reaped => []
  | .failed => [.reported (ascii "waitpid failed")]

/-- `execute_command`. What a program that replaced the child does is not in the state: it is taken to leave
standard input alone. -/
def executeCommand (env : Env) (s : State) (buffer : List UInt8) (args : Args) :
    Except Fault State := do
  match ← readEntry buffer args 0 with
  | none => pure s
  | some _ =>
    let fork := env s.forks
    let s := { s with forks := s.forks + 1 }
    match fork with
    | .failed => pure (s.reported (ascii "fork failed"))
    | .child execvp waitpid => do
      let argv ← readArgv buffer args 0
      pure { s with out := s.out ++ runChild argv execvp ++ awaitChild waitpid }

/-- `builtin_result_t`. -/
inductive BuiltinResult where
  | none
  | continue
  | exit
  deriving DecidableEq

/-- `dispatch_builtin`. -/
def dispatchBuiltin (lib : LibC) (s : State) (buffer : List UInt8) (args : Args) :
    Except Fault (BuiltinResult × State) := do
  match ← readEntry buffer args 0 with
  | .none => pure (.none, s)
  | some name =>
    if name = ascii "exit" then pure (.exit, s)
    else if name = ascii "history" then do
      let s ← showHistory s
      pure (.continue, s)
    else if name = ascii "recall" then do
      match ← readEntry buffer args 1 with
      | .none => do
        let s ← recallSlot s 0
        pure (.continue, s)
      | some arg =>
        let (number, slot) := parseInt lib arg 0
        if number = false then
          pure (.continue, s.printed .recall (ascii "recall: slot must be a number"))
        else do
          let s ← recallSlot s slot
          pure (.continue, s)
    else pure (.none, s)

/-! ### `main` -/

/-- The locals of `main` and the state of the process. The size of the line buffer is the length of
the bytes it holds. -/
structure Main where
  shell : State
  stdin : Stdin
  inputBuffer : Option (List UInt8)
  keepRunning : Bool
  /-- The loop was left by `break`. -/
  left : Bool
  status : ℕ

/-- `main` in front of its loop. -/
def start (stdin : Stdin) : Main := ⟨historyInit, stdin, none, true, false, 0⟩

/-- The line end at the end of what was read, if there is one, becomes a NUL. -/
def chomp (buffer : List UInt8) (bytesRead : ℕ) : List UInt8 :=
  if 0 < bytesRead ∧ buffer[bytesRead - 1]? = some newline then buffer.set (bytesRead - 1) 0
  else buffer

/-- The `switch` of the loop. -/
def switchBuiltin (env : Env) (m : Main) (buffer : List UInt8) (args : Args) :
    BuiltinResult × State → Except Fault Main
  | (.exit, s) => pure { m with shell := s, keepRunning := false }
  | (.continue, s) => pure { m with shell := s }
  | (.none, s) => do
    let s ← executeCommand env s buffer args
    pure { m with shell := s }

/-- The loop body from the line in the buffer on. -/
def runLine (lib : LibC) (env : Env) (m : Main) (buffer : List UInt8) : Except Fault Main := do
  let length ← strlen buffer
  if length = 0 then pure { m with inputBuffer := some buffer }
  else do
    let s ← recordHistory m.shell buffer
    let (fits, buffer, args) ← parseInput buffer fun _ => .indeterminate
    let m := { m with shell := s, inputBuffer := some buffer }
    if fits = false then
      pure { m with shell := s.printed .main (ascii "too many arguments") }
    else do
      let result ← dispatchBuiltin lib s buffer args
      switchBuiltin env m buffer args result

/-- The body of the loop of `main`. -/
def loopBody (lib : LibC) (env : Env) (m : Main) : Except Fault Main :=
  let s := { m.shell with out := m.shell.out ++ [prompt] }
  let got := getline lib m.inputBuffer m.stdin
  let m := { m with shell := s, stdin := got.stdin, inputBuffer := got.buffer }
  match got.bytesRead with
  | none =>
    let s' := if got.stdin.eof then s else s.reported (ascii "getline failed")
    pure
      { m with
        shell := s'.printed .main (ascii "\nExiting...")
        status := if got.stdin.eof then m.status else 1
        left := true }
  | some bytesRead =>
    match got.buffer with
    | none => .error .indeterminate
    | some buffer => runLine lib env m (chomp buffer bytesRead)

/-- The loop of `main` is over. -/
def Main.done (m : Main) : Bool := m.left || !m.keepRunning

/-- One turn of the loop of `main`, if there is one more. -/
def turn (lib : LibC) (env : Env) (m : Main) : Except Fault Main :=
  if m.done then pure m else loopBody lib env m

/-- `n` turns of the loop of `main`, or fewer if it ends before. -/
def turns (lib : LibC) (env : Env) : ℕ → Main → Except Fault Main
  | 0, m => pure m
  | n + 1, m => do
    let m ← turns lib env n m
    turn lib env m

/-- What is left of a process that returned from `main`. -/
structure Exit where
  heap : Heap
  lastCommand : List UInt8
  /-- The line buffer at the moment of its release. -/
  releasedBuffer : Option (List UInt8)
  status : ℕ
  out : List Event

/-- The `for` loop behind the main loop. -/
def wipeHistory (s : State) : Except Fault Heap :=
  (List.finRange historySlots).foldlM (fun heap i => wipeAndFree heap (s.history i)) s.heap

/-- What `main` does behind its loop. -/
def teardown (m : Main) : Except Fault Exit := do
  let releasedBuffer ← match m.inputBuffer with
    | none => pure none
    | some buffer => do
      let wiped ← explicitBzero buffer buffer.length
      pure (some wiped)
  let heap ← wipeHistory m.shell
  let lastCommand ← explicitBzero m.shell.lastCommand.bytes historySize
  pure ⟨heap, lastCommand, releasedBuffer, m.status, m.shell.out⟩

/-- `main`, if its loop ends within `n` turns. -/
def main (lib : LibC) (env : Env) (stdin : Stdin) (n : ℕ) : Except Fault (Option Exit) := do
  let m ← turns lib env n (start stdin)
  if m.done then do
    let e ← teardown m
    pure (some e)
  else pure none

end CSecureBuild.Shell.Hardened
