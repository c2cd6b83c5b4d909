import Mathlib

/-!
A small shell language with `set -e`. A command either falls through with a status or exits the
script. With errexit on, a simple command that fails exits the script with its own status; on the left
of `||` and in the test of an `if`, errexit is off.

The rules below compute a run command by command: `run_guarded`, `run_recorded` and `run_simple` are
the three styles a script deals with a failure in.
-/

namespace CSecureBuild.Lib.Errexit

variable {σ : Type}

/-- A shell command over a state. -/
inductive Cmd (σ : Type) where
  /-- A simple command: its status and its effect. -/
  | simple (step : σ → ℕ × σ)
  /-- `c; d` -/
  | seq (c d : Cmd σ)
  /-- `c || d` -/
  | orElse (c d : Cmd σ)
  /-- `if test; then c; else d; fi` -/
  | ifElse (test c d : Cmd σ)
  /-- `case value in ... esac` -/
  | caseOf (value : σ → ℕ) (arm : ℕ → Cmd σ)
  /-- `exit code` -/
  | exit (code : ℕ)

/-- How a command ends. -/
inductive Outcome (σ : Type) where
  /-- The next command runs, and `$?` is the status. -/
  | next (status : ℕ) (s : σ)
  /-- The script is over. -/
  | exited (code : ℕ) (s : σ)

/-- Going on behind a command that fell through. -/
def Outcome.andThen (o : Outcome σ) (f : ℕ → σ → Outcome σ) : Outcome σ :=
  match o with
  | .next status s => f status s
  | .exited code s => .exited code s

/-- A run of a command, with errexit on or off. -/
def Cmd.run (errexit : Bool) : Cmd σ → σ → Outcome σ
  | .simple step, s =>
    if errexit = true ∧ (step s).1 ≠ 0 then .exited (step s).1 (step s).2
    else .next (step s).1 (step s).2
  | .seq c d, s => (c.run errexit s).andThen fun _ s => d.run errexit s
  | .orElse c d, s => (c.run false s).andThen fun status s =>
      if status = 0 then .next 0 s else d.run errexit s
  | .ifElse test c d, s => (test.run false s).andThen fun status s =>
      if status = 0 then c.run errexit s else d.run errexit s
  | .caseOf value arm, s => (arm (value s)).run errexit s
  | .exit code, s => .exited code s

/-- A script with `set -e`: its exit code, and the state it leaves. The commands of its `EXIT` trap, as
far as one is set, run last, and one that fails there replaces the exit code. -/
def runScript (trap : σ → Cmd σ) (c : Cmd σ) (s : σ) : ℕ × σ :=
  let ending (code : ℕ) (s : σ) : ℕ × σ :=
    match (trap s).run true s with
    | .next _ s => (code, s)
    | .exited code s => (code, s)
  match c.run true s with
  | .next status s => ending status s
  | .exited code s => ending code s

/-- A command that always succeeds. -/
def Cmd.set (f : σ → σ) : Cmd σ := .simple fun s => (0, f s)

/-- A test of the shell's own. -/
def Cmd.test (p : σ → Bool) : Cmd σ := .simple fun s => (if p s then 0 else 1, s)

/-- Commands one after the other. -/
def Cmd.all : List (Cmd σ) → Cmd σ
  | [] => .set id
  | [c] => c
  | c :: cs => .seq c (Cmd.all cs)

/-! ### Computing a run -/

section Rules

variable (step : σ → ℕ × σ) (s : σ)

@[simp] lemma andThen_next (status : ℕ) (f : ℕ → σ → Outcome σ) :
    (Outcome.next status s).andThen f = f status s := rfl

@[simp] lemma andThen_exited (code : ℕ) (f : ℕ → σ → Outcome σ) :
    (Outcome.exited code s).andThen f = .exited code s := rfl

lemma andThen_ite (p : Prop) [Decidable p] (o o' : Outcome σ) (f : ℕ → σ → Outcome σ) :
    (if p then o else o').andThen f = if p then o.andThen f else o'.andThen f := by
  split_ifs <;> rfl

@[simp] lemma run_seq (errexit : Bool) (c d : Cmd σ) :
    (Cmd.seq c d).run errexit s = (c.run errexit s).andThen fun _ s => d.run errexit s := rfl

@[simp] lemma run_exit (errexit : Bool) (code : ℕ) :
    (Cmd.exit code : Cmd σ).run errexit s = .exited code s := rfl

@[simp] lemma run_caseOf (errexit : Bool) (value : σ → ℕ) (arm : ℕ → Cmd σ) :
    (Cmd.caseOf value arm).run errexit s = (arm (value s)).run errexit s := rfl

@[simp] lemma run_set (errexit : Bool) (f : σ → σ) : (Cmd.set f).run errexit s = .next 0 (f s) := by
  simp [Cmd.set, Cmd.run]

lemma run_simple : (Cmd.simple step).run true s =
    if (step s).1 = 0 then .next 0 (step s).2 else .exited (step s).1 (step s).2 := by
  by_cases h : (step s).1 = 0 <;> simp [Cmd.run, h]

lemma run_guarded (errexit : Bool) (d : Cmd σ) : (Cmd.orElse (.simple step) d).run errexit s =
    if (step s).1 = 0 then .next 0 (step s).2 else d.run errexit (step s).2 := by
  simp [Cmd.run]

lemma run_recorded (errexit : Bool) (f : σ → σ) :
    (Cmd.orElse (.simple step) (.set f)).run errexit s =
      .next 0 (if (step s).1 = 0 then (step s).2 else f (step s).2) := by
  rw [run_guarded, run_set]
  split_ifs <;> rfl

lemma run_ifElse_test (errexit : Bool) (p : σ → Bool) (c d : Cmd σ) :
    (Cmd.ifElse (.test p) c d).run errexit s =
      if p s then c.run errexit s else d.run errexit s := by
  by_cases h : p s <;> simp [Cmd.run, Cmd.test, h]

lemma run_test_guarded (errexit : Bool) (p : σ → Bool) (d : Cmd σ) :
    (Cmd.orElse (.test p) d).run errexit s = if p s then .next 0 s else d.run errexit s := by
  by_cases h : p s <;> simp [Cmd.run, Cmd.test, h]

end Rules

end CSecureBuild.Lib.Errexit
