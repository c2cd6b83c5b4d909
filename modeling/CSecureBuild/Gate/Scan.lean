import CSecureBuild.Lib.Errexit

/-!
`scripts/scan.sh`, command by command. What the commands do to files is not here; what is, is the exit
status of each external command, whether a tool is on the path, whether a test script is there, and
whether a report was written non-empty (`Machine`). Builtins of the shell succeed, the messages of
`echo` are left out.
-/

namespace CSecureBuild.Gate.Scan

open CSecureBuild.Lib.Errexit

/-- The two dynamic passes, each with its own build. -/
inductive Pass where
  | asan
  | valgrind
  deriving DecidableEq

/-- The static engines. -/
inductive Engine where
  | flawfinder
  | semgrep
  deriving DecidableEq

/-- The tools the script looks for. -/
inductive Tool where
  | flawfinder
  | semgrep
  | valgrind
  deriving DecidableEq

/-- The test scripts, which older tags do not have. -/
inductive TestScript where
  | recall
  | shell
  deriving DecidableEq

/-- The external commands of the script, each at its place. -/
inductive Command where
  | cd
  | makeClean (pass : Pass)
  | make (pass : Pass)
  | mktemp (pass : Pass)
  | asanRun
  | testRun (script : TestScript)
  | valgrindRun
  | mkdir
  | mv (pass : Pass)
  | report (engine : Engine)
  | block (engine : Engine)
  | cat
  /-- The `rm -f` of the exit trap. -/
  | rm
  deriving DecidableEq

/-- What the script finds on the machine it runs on. -/
structure Machine where
  /-- The exit status of each command, should it run. -/
  status : Command → ℕ
  found : Tool → Bool
  present : TestScript → Bool
  /-- The report of an engine is not empty. -/
  written : Engine → Bool

/-- The variables of the script, whether its exit trap is set, and the external commands that ran. -/
structure State where
  blocked : Bool
  probe : ℕ
  trapped : Bool
  ran : List Command

/-- The state the script starts in. -/
def State.start : State := ⟨false, 0, false, []⟩

/-- A command ran. -/
def State.log (s : State) (c : Command) : State := { s with ran := s.ran ++ [c] }

/-- `blocked=1`. -/
def State.block (s : State) : State := { s with blocked := true }

variable (m : Machine)

/-- An external command. -/
def external (c : Command) : Cmd State := .simple fun s => (m.status c, s.log c)

/-- `broken`. -/
def broken : Cmd State := .exit 2

/-- `verdict`, on what is in `probe`. -/
def verdict : Cmd State :=
  .caseOf (fun s => s.probe) fun
    | 0 => .set id
    | 1 => .set State.block
    | _ => broken

/-- The loop over the tools. -/
def checkTool (t : Tool) : Cmd State :=
  .ifElse (.test fun _ => m.found t) (.set id) (.exit 2)

/-- The body of the loop over the test scripts. -/
def runTest (t : TestScript) : Cmd State :=
  .ifElse (.test fun _ => m.present t) (.orElse (external m (.testRun t)) (.set State.block))
    (.set id)

/-- A clean build. -/
def build (pass : Pass) : Cmd State :=
  .all [.orElse (external m (.makeClean pass)) broken, .orElse (external m (.make pass)) broken]

/-- From `cd` to the `trap`. -/
def prologue : Cmd State :=
  .all [
    external m .cd,
    checkTool m .flawfinder, checkTool m .semgrep, checkTool m .valgrind,
    .set fun s => { s with blocked := false },
    .set fun s => { s with trapped := true }]

/-- The pass with the sanitizers. -/
def asanPass : Cmd State :=
  .all [
    build m .asan,
    external m (.mktemp .asan),
    .orElse (external m .asanRun) (.set State.block),
    runTest m .recall, runTest m .shell]

/-- The pass with Valgrind. -/
def valgrindPass : Cmd State :=
  .all [
    build m .valgrind,
    external m (.mktemp .valgrind),
    .orElse (external m .valgrindRun) (.set State.block)]

/-- Keeping the logs. -/
def collect : Cmd State :=
  .all [external m .mkdir, external m (.mv .valgrind), external m (.mv .asan)]

/-- The report pass of an engine. -/
def reportPass (e : Engine) : Cmd State :=
  .all [
    .orElse (external m (.report e)) broken,
    .orElse (.test fun _ => m.written e) broken]

/-- The block pass of an engine. -/
def blockPass (e : Engine) : Cmd State :=
  .all [
    .set fun s => { s with probe := 0 },
    .orElse (external m (.block e)) (.set fun s => { s with probe := m.status (.block e) }),
    verdict]

/-- The end of the script. -/
def ending : Cmd State :=
  .all [
    .ifElse (.test fun s => s.blocked) (.seq (external m .cat) (.exit 1)) (.set id),
    .set id]

/-- The script. -/
def script : Cmd State :=
  .all [
    prologue m, asanPass m, valgrindPass m, collect m,
    reportPass m .flawfinder, reportPass m .semgrep,
    blockPass m .flawfinder, blockPass m .semgrep, ending m]

/-- The commands of the exit trap, once it is set. -/
def trap (s : State) : Cmd State := if s.trapped then external m .rm else .set id

/-- A run of the script: its exit code, and the state it leaves. -/
def scan : ℕ × State := runScript (trap m) (script m) .start

end CSecureBuild.Gate.Scan
