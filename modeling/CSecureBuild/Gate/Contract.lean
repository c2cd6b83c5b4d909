import CSecureBuild.Gate.Scan

/-!
The exit codes of the gate. `README.md` promises that 0 means nothing blocked, 1 means a finding
blocked, and 2 means nothing was scanned. The commands under `|| broken` keep to that; the ones left to
errexit hand on their own status, and so does the exit trap. `kept_iff_sound` says exactly when the
promise is kept.

What the script does is decided by the first command that stops it (`kept_of_stop`), and if there is
none by the findings (`kept_of_completed`).
-/

namespace CSecureBuild.Gate.Contract

open CSecureBuild.Lib.Errexit CSecureBuild.Gate.Scan

/-! ### The promise -/

/-- The dynamic runs with the sanitizers: the shell itself, and the test scripts there are. -/
def asanFindings (m : Machine) : List Command :=
  [.asanRun] ++ (if m.present .recall then [.testRun .recall] else []) ++
    (if m.present .shell then [.testRun .shell] else [])

/-- The commands whose failure is a finding: the dynamic runs and the block passes. -/
def findings (m : Machine) : List Command :=
  asanFindings m ++ [.valgrindRun, .block .flawfinder, .block .semgrep]

/-- Everything ran and found nothing, and both reports were written. -/
def Clean (m : Machine) (ran : List Command) : Prop :=
  (∀ c ∈ findings m, c ∈ ran ∧ m.status c = 0) ∧ ∀ e, .report e ∈ ran ∧ m.written e = true

/-- Something was found, and both engines completed their passes. -/
def Blocked (m : Machine) (ran : List Command) : Prop :=
  (∃ c ∈ findings m, c ∈ ran ∧ m.status c ≠ 0) ∧
    ∀ e, .report e ∈ ran ∧ m.status (.report e) = 0 ∧ m.written e = true ∧
      .block e ∈ ran ∧ m.status (.block e) ≤ 1

/-- An exit code keeps the promise, after the commands that ran. -/
def KeptBy (m : Machine) (code : ℕ) (ran : List Command) : Prop :=
  (code = 0 → Clean m ran) ∧ (code = 1 → Blocked m ran) ∧ (code ≠ 0 → code ≠ 1 → code = 2)

/-- The script keeps the promise. -/
def Kept (m : Machine) : Prop := KeptBy m (scan m).1 (scan m).2.ran

/-! ### When it is kept -/

/-- All tools are there. -/
def AllFound (m : Machine) : Prop :=
  m.found .flawfinder = true ∧ m.found .semgrep = true ∧ m.found .valgrind = true

instance (m : Machine) : Decidable (AllFound m) := inferInstanceAs (Decidable (_ ∧ _ ∧ _))

/-- An engine wrote its report. -/
def Reported (m : Machine) (e : Engine) : Prop := m.status (.report e) = 0 ∧ m.written e = true

instance (m : Machine) (e : Engine) : Decidable (Reported m e) :=
  inferInstanceAs (Decidable (_ ∧ _))

/-- The commands behind the trap that neither `|| broken` nor a flag guards. -/
def unguarded : List Command := [.mktemp .asan, .mktemp .valgrind, .mkdir, .mv .valgrind, .mv .asan]

/-- The commands that must succeed before an unguarded one runs. -/
def before : Command → List Command
  | .mktemp .asan => [.cd, .makeClean .asan, .make .asan]
  | .mktemp .valgrind => [.cd, .makeClean .asan, .make .asan, .mktemp .asan, .makeClean .valgrind,
      .make .valgrind]
  | .mkdir => [.cd, .makeClean .asan, .make .asan, .mktemp .asan, .makeClean .valgrind,
      .make .valgrind, .mktemp .valgrind]
  | .mv .valgrind => [.cd, .makeClean .asan, .make .asan, .mktemp .asan, .makeClean .valgrind,
      .make .valgrind, .mktemp .valgrind, .mkdir]
  | .mv .asan => [.cd, .makeClean .asan, .make .asan, .mktemp .asan, .makeClean .valgrind,
      .make .valgrind, .mktemp .valgrind, .mkdir, .mv .valgrind]
  | _ => []

/-- An unguarded command runs. -/
def Reached (m : Machine) (c : Command) : Prop := AllFound m ∧ ∀ d ∈ before c, m.status d = 0

/-- The unguarded commands that run succeed, or fail with the status that says so. -/
def OwnStatus (m : Machine) : Prop := ∀ c ∈ unguarded, Reached m c → m.status c = 0 ∨ m.status c = 2

/-- No engine fails, and nothing in front of the engines does. -/
def Completed (m : Machine) : Prop :=
  Reached m (.mv .asan) ∧ m.status (.mv .asan) = 0 ∧
    ∀ e, m.status (.report e) = 0 ∧ m.written e = true ∧ m.status (.block e) ≤ 1

/-- Something is found. -/
def Finding (m : Machine) : Prop := ∃ c ∈ findings m, m.status c ≠ 0

/-- No command hands on a status that means something else: `cd` in front of the trap, the unguarded
commands and the `cat` of a blocked scan behind it, and the `rm` in it. -/
def Sound (m : Machine) : Prop :=
  (m.status .cd = 0 ∨ m.status .cd = 2) ∧
    (m.status .cd = 0 → AllFound m →
      m.status .rm = 2 ∨ (m.status .rm = 1 ∧ Completed m ∧ Finding m) ∨
        (m.status .rm = 0 ∧ OwnStatus m ∧ (Completed m → Finding m → m.status .cat ≤ 2)))

/-! ### What the parts of the script do -/

section Parts

variable (m : Machine) (s : State)

/-- Commands ran. -/
def logs (cs : List Command) : State := { s with ran := s.ran ++ cs }

/-- Commands ran, and after them some whose failure is a finding. -/
def passed (cs found : List Command) : State :=
  { s with
    blocked := s.blocked || found.any fun c => decide (m.status c ≠ 0)
    ran := s.ran ++ cs ++ found }

lemma run_external (c : Command) : (external m c).run true s =
    if m.status c = 0 then .next 0 (s.log c) else .exited (m.status c) (s.log c) :=
  run_simple _ s

lemma run_broken (errexit : Bool) : broken.run errexit s = .exited 2 s := rfl

lemma run_external_broken (c : Command) : (Cmd.orElse (external m c) broken).run true s =
    if m.status c = 0 then .next 0 (s.log c) else .exited 2 (s.log c) :=
  run_guarded _ s true broken

lemma run_external_block (c : Command) :
    (Cmd.orElse (external m c) (.set State.block)).run true s = .next 0 (passed m s [] [c]) := by
  unfold external
  rw [run_recorded]
  by_cases h : m.status c = 0 <;> simp [h, State.block, State.log, passed]

lemma run_test (t : TestScript) : (runTest m t).run true s =
    .next 0 (passed m s [] (if m.present t then [.testRun t] else [])) := by
  unfold runTest
  rw [run_ifElse_test, run_external_block, run_set]
  by_cases h : m.present t = true <;> simp [h, passed]

lemma passed_passed (cs found found' : List Command) :
    passed m (passed m s cs found) [] found' = passed m s cs (found ++ found') := by
  simp [passed, Bool.or_assoc, List.append_assoc]

lemma prologue_run : (prologue m).run true s =
    if m.status .cd = 0 then
      if AllFound m then .next 0 ⟨false, s.probe, true, s.ran ++ [.cd]⟩
      else .exited 2 (logs s [.cd])
    else .exited (m.status .cd) (logs s [.cd]) := by
  simp only [prologue, checkTool, Cmd.all, run_seq, run_external, run_ifElse_test, run_set, run_exit,
    andThen_ite, andThen_next, andThen_exited]
  cases h₁ : m.found .flawfinder <;> cases h₂ : m.found .semgrep <;> cases h₃ : m.found .valgrind <;>
    simp [AllFound, h₁, h₂, h₃, State.log, logs]

lemma asanPass_run : (asanPass m).run true s =
    if m.status (.makeClean .asan) = 0 then
      if m.status (.make .asan) = 0 then
        if m.status (.mktemp .asan) = 0 then
          .next 0 (passed m s [.makeClean .asan, .make .asan, .mktemp .asan] (asanFindings m))
        else .exited (m.status (.mktemp .asan))
          (logs s [.makeClean .asan, .make .asan, .mktemp .asan])
      else .exited 2 (logs s [.makeClean .asan, .make .asan])
    else .exited 2 (logs s [.makeClean .asan]) := by
  simp only [asanPass, build, Cmd.all, run_seq, run_external, run_external_broken,
    run_external_block, run_test, andThen_ite, andThen_next, andThen_exited, passed_passed]
  simp [logs, passed, State.log, asanFindings]

lemma valgrindPass_run : (valgrindPass m).run true s =
    if m.status (.makeClean .valgrind) = 0 then
      if m.status (.make .valgrind) = 0 then
        if m.status (.mktemp .valgrind) = 0 then
          .next 0 (passed m s [.makeClean .valgrind, .make .valgrind, .mktemp .valgrind]
            [.valgrindRun])
        else .exited (m.status (.mktemp .valgrind))
          (logs s [.makeClean .valgrind, .make .valgrind, .mktemp .valgrind])
      else .exited 2 (logs s [.makeClean .valgrind, .make .valgrind])
    else .exited 2 (logs s [.makeClean .valgrind]) := by
  simp only [valgrindPass, build, Cmd.all, run_seq, run_external, run_external_broken,
    run_external_block, andThen_ite, andThen_next, andThen_exited]
  simp [logs, passed, State.log]

lemma collect_run : (collect m).run true s =
    if m.status .mkdir = 0 then
      if m.status (.mv .valgrind) = 0 then
        if m.status (.mv .asan) = 0 then .next 0 (logs s [.mkdir, .mv .valgrind, .mv .asan])
        else .exited (m.status (.mv .asan)) (logs s [.mkdir, .mv .valgrind, .mv .asan])
      else .exited (m.status (.mv .valgrind)) (logs s [.mkdir, .mv .valgrind])
    else .exited (m.status .mkdir) (logs s [.mkdir]) := by
  simp only [collect, Cmd.all, run_seq, run_external, andThen_ite, andThen_next, andThen_exited]
  simp [logs, State.log]

lemma reportPass_run (e : Engine) : (reportPass m e).run true s =
    if Reported m e then .next 0 (logs s [.report e])
    else .exited 2 (logs s [.report e]) := by
  simp only [reportPass, Cmd.all, run_seq, run_external_broken, run_test_guarded, run_broken,
    andThen_ite, andThen_next, andThen_exited]
  by_cases h : m.status (.report e) = 0 <;> cases hw : m.written e <;>
    simp [Reported, h, hw, State.log, logs]

lemma blockPass_run (e : Engine) : (blockPass m e).run true s =
    if m.status (.block e) ≤ 1 then
      .next 0 { passed m s [] [.block e] with probe := m.status (.block e) }
    else .exited 2 { logs s [.block e] with probe := m.status (.block e) } := by
  have hverdict : ∀ t : State, verdict.run true t =
      if t.probe ≤ 1 then .next 0 { t with blocked := t.blocked || decide (t.probe ≠ 0) }
      else .exited 2 t := by
    rintro ⟨blocked, probe, trapped, ran⟩
    unfold verdict
    rw [run_caseOf]
    match probe with
    | 0 => simp
    | 1 => simp [State.block]
    | n + 2 => simp [broken]
  simp only [blockPass, Cmd.all, run_seq, run_set, andThen_next, external, run_recorded, hverdict]
  by_cases h : m.status (.block e) = 0 <;> simp [h, State.log, logs, passed]

lemma ending_run : (ending m).run true s =
    if s.blocked = true then
      if m.status .cat = 0 then .exited 1 (s.log .cat) else .exited (m.status .cat) (s.log .cat)
    else .next 0 s := by
  simp only [ending, Cmd.all, run_seq, run_ifElse_test, run_external, run_exit, run_set, andThen_ite,
    andThen_next, andThen_exited]
  rfl

end Parts

/-! ### How far the script gets -/

section Progress

variable {m : Machine}

/-- Behind the trap. -/
def s₁ : State := ⟨false, 0, true, [.cd]⟩

/-- Behind the pass with the sanitizers. -/
def s₂ (m : Machine) : State :=
  passed m s₁ [.makeClean .asan, .make .asan, .mktemp .asan] (asanFindings m)

/-- Behind the pass with Valgrind. -/
def s₃ (m : Machine) : State :=
  passed m (s₂ m) [.makeClean .valgrind, .make .valgrind, .mktemp .valgrind] [.valgrindRun]

/-- Behind the reports. -/
def s₄ (m : Machine) : State :=
  logs (logs (logs (s₃ m) [.mkdir, .mv .valgrind, .mv .asan]) [.report .flawfinder])
    [.report .semgrep]

/-- Behind a block pass. -/
def afterBlock (m : Machine) (s : State) (e : Engine) : State :=
  { passed m s [] [.block e] with probe := m.status (.block e) }

/-- In front of the verdict. -/
def sEnd (m : Machine) : State := afterBlock m (afterBlock m (s₄ m) .flawfinder) .semgrep

/-- The build of a pass and its temporary file. -/
def Built (m : Machine) (p : Pass) : Prop :=
  m.status (.makeClean p) = 0 ∧ m.status (.make p) = 0 ∧ m.status (.mktemp p) = 0

/-- The logs are kept. -/
def Collected (m : Machine) : Prop :=
  m.status .mkdir = 0 ∧ m.status (.mv .valgrind) = 0 ∧ m.status (.mv .asan) = 0

lemma completed_iff : Completed m ↔ (m.status .cd = 0 ∧ AllFound m) ∧ Built m .asan ∧
    Built m .valgrind ∧ Collected m ∧ (∀ e, Reported m e) ∧ ∀ e, m.status (.block e) ≤ 1 := by
  unfold Completed Reached Built Collected Reported
  simp only [before, List.forall_mem_cons, List.not_mem_nil, false_implies, implies_true, and_true]
  constructor
  · rintro ⟨⟨hf, h⟩, hmv, he⟩
    exact ⟨⟨h.1, hf⟩, by tauto, by tauto, by tauto, fun e => ⟨(he e).1, (he e).2.1⟩,
      fun e => (he e).2.2⟩
  · rintro ⟨⟨hcd, hf⟩, ha, hv, hc, hr, hb⟩
    exact ⟨⟨hf, by tauto⟩, hc.2.2, fun e => ⟨(hr e).1, (hr e).2, hb e⟩⟩

lemma script_prologue (hcd : m.status .cd = 0) (hf : AllFound m) : (script m).run true .start =
    ((asanPass m).run true s₁).andThen fun _ s =>
      (Cmd.all [valgrindPass m, collect m, reportPass m .flawfinder, reportPass m .semgrep,
        blockPass m .flawfinder, blockPass m .semgrep, ending m]).run true s := by
  simp only [script, Cmd.all, run_seq, prologue_run, if_pos hcd, if_pos hf, andThen_next]
  rfl

lemma script_asan (hcd : m.status .cd = 0) (hf : AllFound m) (ha : Built m .asan) :
    (script m).run true .start = ((valgrindPass m).run true (s₂ m)).andThen fun _ s =>
      (Cmd.all [collect m, reportPass m .flawfinder, reportPass m .semgrep,
        blockPass m .flawfinder, blockPass m .semgrep, ending m]).run true s := by
  rw [script_prologue hcd hf, asanPass_run, if_pos ha.1, if_pos ha.2.1, if_pos ha.2.2]
  rfl

lemma script_valgrind (hcd : m.status .cd = 0) (hf : AllFound m) (ha : Built m .asan)
    (hv : Built m .valgrind) :
    (script m).run true .start = ((collect m).run true (s₃ m)).andThen fun _ s =>
      (Cmd.all [reportPass m .flawfinder, reportPass m .semgrep, blockPass m .flawfinder,
        blockPass m .semgrep, ending m]).run true s := by
  rw [script_asan hcd hf ha, valgrindPass_run, if_pos hv.1, if_pos hv.2.1, if_pos hv.2.2]
  rfl

lemma script_collect (hcd : m.status .cd = 0) (hf : AllFound m) (ha : Built m .asan)
    (hv : Built m .valgrind) (hc : Collected m) :
    (script m).run true .start = (Cmd.all [reportPass m .flawfinder, reportPass m .semgrep,
      blockPass m .flawfinder, blockPass m .semgrep, ending m]).run true
        (logs (s₃ m) [.mkdir, .mv .valgrind, .mv .asan]) := by
  rw [script_valgrind hcd hf ha hv, collect_run, if_pos hc.1, if_pos hc.2.1, if_pos hc.2.2]
  rfl

lemma script_reports (hcd : m.status .cd = 0) (hf : AllFound m) (ha : Built m .asan)
    (hv : Built m .valgrind) (hc : Collected m) (hr : ∀ e, Reported m e) :
    (script m).run true .start =
      (Cmd.all [blockPass m .flawfinder, blockPass m .semgrep, ending m]).run true (s₄ m) := by
  rw [script_collect hcd hf ha hv hc]
  simp only [Cmd.all, run_seq, reportPass_run]
  rw [if_pos (hr .flawfinder), andThen_next, if_pos (hr .semgrep)]
  rfl

lemma script_blocks (hc : Completed m) :
    (script m).run true .start = (ending m).run true (sEnd m) := by
  obtain ⟨⟨hcd, hf⟩, ha, hv, hc, hr, hb⟩ := completed_iff.mp hc
  rw [script_reports hcd hf ha hv hc hr]
  simp only [Cmd.all, run_seq, blockPass_run]
  rw [if_pos (hb .flawfinder), andThen_next, if_pos (hb .semgrep)]
  rfl

end Progress

/-! ### Where it stops -/

section Stops

variable {m : Machine} {code : ℕ} {s : State}

/-- What the exit trap makes of a stop behind it. -/
lemma scan_exited (h : (script m).run true .start = .exited code s) (ht : s.trapped = true) :
    scan m = (if m.status .rm = 0 then code else m.status .rm, s.log .rm) := by
  unfold scan runScript
  simp only [h, trap, ht, if_true, run_external]
  split_ifs <;> rfl

/-- **A stop behind the trap and in front of the verdict**: the promise is kept if the exit code is 2,
or if the trap makes it 2. -/
lemma kept_of_stop (h : (script m).run true .start = .exited code s) (ht : s.trapped = true)
    (hcd : m.status .cd = 0) (hf : AllFound m) (hne : code ≠ 0) (hc : ¬ Completed m)
    (hb : .block .semgrep ∉ s.ran ∨ 1 < m.status (.block .semgrep)) (ho : OwnStatus m ↔ code = 2) :
    Kept m ↔ Sound m := by
  have hran : ¬ Blocked m (s.log .rm).ran := by
    rintro ⟨-, he⟩
    obtain ⟨-, -, -, hmem, hle⟩ := he .semgrep
    rcases hb with hb | hb
    · simp only [State.log, List.mem_append, List.mem_singleton, reduceCtorEq, or_false] at hmem
      exact hb hmem
    · omega
  unfold Kept KeptBy Sound
  rw [scan_exited h ht, ho]
  simp only [hcd, hf, hc, hran, forall_const]
  by_cases hr : m.status .rm = 0
  · simp [hr, hne]
    omega
  · simp [hr]
    omega

lemma block_notMem_asanFindings (e : Engine) : .block e ∉ asanFindings m := by
  unfold asanFindings
  split_ifs <;> simp

lemma kept_of_cd (hcd : m.status .cd ≠ 0) : Kept m ↔ Sound m := by
  have hscan : scan m = (m.status .cd, logs .start [.cd]) := by
    have h : (script m).run true .start = .exited (m.status .cd) (logs .start [.cd]) := by
      simp only [script, Cmd.all, run_seq, prologue_run, if_neg hcd, andThen_exited]
    unfold scan runScript
    simp only [h]
    simp [trap, logs, State.start]
  have hran : ¬ Blocked m [.cd] := fun h => by simpa using (h.2 .flawfinder).1
  unfold Kept KeptBy Sound
  rw [hscan]
  simp [logs, State.start, hcd, hran]
  omega

lemma kept_of_missing (hcd : m.status .cd = 0) (hf : ¬ AllFound m) : Kept m ↔ Sound m := by
  have hscan : scan m = (2, logs .start [.cd]) := by
    have h : (script m).run true .start = .exited 2 (logs .start [.cd]) := by
      simp only [script, Cmd.all, run_seq, prologue_run, if_pos hcd, if_neg hf, andThen_exited]
    unfold scan runScript
    simp only [h]
    simp [trap, logs, State.start]
  unfold Kept KeptBy Sound
  rw [hscan]
  simp [hcd, hf]

lemma kept_of_asan (hcd : m.status .cd = 0) (hf : AllFound m) (ha : ¬ Built m .asan) :
    Kept m ↔ Sound m := by
  have hc : ¬ Completed m := fun h => ha (completed_iff.mp h).2.1
  have hrun := script_prologue hcd hf
  rw [asanPass_run] at hrun
  by_cases h₁ : m.status (.makeClean .asan) = 0
  swap
  · rw [if_neg h₁] at hrun
    exact kept_of_stop hrun rfl hcd hf (by omega) hc (Or.inl (by simp [logs, s₁]))
      (by simp [OwnStatus, unguarded, Reached, before, h₁])
  by_cases h₂ : m.status (.make .asan) = 0
  swap
  · rw [if_pos h₁, if_neg h₂] at hrun
    exact kept_of_stop hrun rfl hcd hf (by omega) hc (Or.inl (by simp [logs, s₁]))
      (by simp [OwnStatus, unguarded, Reached, before, h₂])
  have h₃ : m.status (.mktemp .asan) ≠ 0 := fun h₃ => ha ⟨h₁, h₂, h₃⟩
  rw [if_pos h₁, if_pos h₂, if_neg h₃] at hrun
  exact kept_of_stop hrun rfl hcd hf h₃ hc (Or.inl (by simp [logs, s₁]))
    (by simp [OwnStatus, unguarded, Reached, before, hcd, hf, h₁, h₂, h₃])

lemma kept_of_valgrind (hcd : m.status .cd = 0) (hf : AllFound m) (ha : Built m .asan)
    (hv : ¬ Built m .valgrind) : Kept m ↔ Sound m := by
  have hc : ¬ Completed m := fun h => hv (completed_iff.mp h).2.2.1
  have hrun := script_asan hcd hf ha
  obtain ⟨a₁, a₂, a₃⟩ := ha
  have hblock : .block .semgrep ∉ (s₂ m).ran := by
    simp [s₂, s₁, passed, block_notMem_asanFindings]
  rw [valgrindPass_run] at hrun
  by_cases h₁ : m.status (.makeClean .valgrind) = 0
  swap
  · rw [if_neg h₁] at hrun
    exact kept_of_stop hrun rfl hcd hf (by omega) hc (Or.inl (by simpa [logs] using hblock))
      (by simp [OwnStatus, unguarded, Reached, before, a₃, h₁])
  by_cases h₂ : m.status (.make .valgrind) = 0
  swap
  · rw [if_pos h₁, if_neg h₂] at hrun
    exact kept_of_stop hrun rfl hcd hf (by omega) hc (Or.inl (by simpa [logs] using hblock))
      (by simp [OwnStatus, unguarded, Reached, before, a₃, h₂])
  have h₃ : m.status (.mktemp .valgrind) ≠ 0 := fun h₃ => hv ⟨h₁, h₂, h₃⟩
  rw [if_pos h₁, if_pos h₂, if_neg h₃] at hrun
  exact kept_of_stop hrun rfl hcd hf h₃ hc (Or.inl (by simpa [logs] using hblock))
    (by simp [OwnStatus, unguarded, Reached, before, hcd, hf, a₁, a₂, a₃, h₁, h₂, h₃])

lemma kept_of_collect (hcd : m.status .cd = 0) (hf : AllFound m) (ha : Built m .asan)
    (hv : Built m .valgrind) (hl : ¬ Collected m) : Kept m ↔ Sound m := by
  have hc : ¬ Completed m := fun h => hl (completed_iff.mp h).2.2.2.1
  have hrun := script_valgrind hcd hf ha hv
  obtain ⟨a₁, a₂, a₃⟩ := ha
  obtain ⟨v₁, v₂, v₃⟩ := hv
  have hblock : .block .semgrep ∉ (s₃ m).ran := by
    simp [s₃, s₂, s₁, passed, block_notMem_asanFindings]
  rw [collect_run] at hrun
  by_cases h₁ : m.status .mkdir = 0
  swap
  · rw [if_neg h₁] at hrun
    exact kept_of_stop hrun rfl hcd hf h₁ hc (Or.inl (by simpa [logs] using hblock))
      (by simp [OwnStatus, unguarded, Reached, before, hcd, hf, a₁, a₂, a₃, v₁, v₂, v₃, h₁])
  by_cases h₂ : m.status (.mv .valgrind) = 0
  swap
  · rw [if_pos h₁, if_neg h₂] at hrun
    exact kept_of_stop hrun rfl hcd hf h₂ hc (Or.inl (by simpa [logs] using hblock))
      (by simp [OwnStatus, unguarded, Reached, before, hcd, hf, a₁, a₂, a₃, v₁, v₂, v₃, h₁, h₂])
  have h₃ : m.status (.mv .asan) ≠ 0 := fun h₃ => hl ⟨h₁, h₂, h₃⟩
  rw [if_pos h₁, if_pos h₂, if_neg h₃] at hrun
  exact kept_of_stop hrun rfl hcd hf h₃ hc (Or.inl (by simpa [logs] using hblock))
    (by simp [OwnStatus, unguarded, Reached, before, hcd, hf, a₁, a₂, a₃, v₁, v₂, v₃, h₁, h₂, h₃])

lemma ownStatus_of_collected (ha : Built m .asan) (hv : Built m .valgrind) (hl : Collected m) :
    OwnStatus m := by
  simp [OwnStatus, unguarded, ha.2.2, hv.2.2, hl.1, hl.2.1, hl.2.2]

lemma kept_of_reports (hcd : m.status .cd = 0) (hf : AllFound m) (ha : Built m .asan)
    (hv : Built m .valgrind) (hl : Collected m) (hr : ¬ ∀ e, Reported m e) :
    Kept m ↔ Sound m := by
  have hc : ¬ Completed m := fun h => hr (completed_iff.mp h).2.2.2.2.1
  have hown : OwnStatus m ↔ 2 = 2 := ⟨fun _ => rfl, fun _ => ownStatus_of_collected ha hv hl⟩
  have hblock : .block .semgrep ∉ (s₃ m).ran := by
    simp [s₃, s₂, s₁, passed, block_notMem_asanFindings]
  have hrun := script_collect hcd hf ha hv hl
  simp only [Cmd.all, run_seq, reportPass_run] at hrun
  by_cases h₁ : Reported m .flawfinder
  · have h₂ : ¬ Reported m .semgrep := fun h₂ => hr fun e => by cases e <;> assumption
    rw [if_pos h₁, andThen_next, if_neg h₂] at hrun
    exact kept_of_stop hrun rfl hcd hf (by omega) hc (Or.inl (by simpa [logs] using hblock)) hown
  · rw [if_neg h₁] at hrun
    exact kept_of_stop hrun rfl hcd hf (by omega) hc (Or.inl (by simpa [logs] using hblock)) hown

lemma kept_of_blocks (hcd : m.status .cd = 0) (hf : AllFound m) (ha : Built m .asan)
    (hv : Built m .valgrind) (hl : Collected m) (hr : ∀ e, Reported m e)
    (hb : ¬ ∀ e, m.status (.block e) ≤ 1) : Kept m ↔ Sound m := by
  have hc : ¬ Completed m := fun h => hb (completed_iff.mp h).2.2.2.2.2
  have hown : OwnStatus m ↔ 2 = 2 := ⟨fun _ => rfl, fun _ => ownStatus_of_collected ha hv hl⟩
  have hblock : .block .semgrep ∉ (s₄ m).ran := by
    simp [s₄, s₃, s₂, s₁, passed, logs, block_notMem_asanFindings]
  have hrun := script_reports hcd hf ha hv hl hr
  simp only [Cmd.all, run_seq, blockPass_run] at hrun
  by_cases h₁ : m.status (.block .flawfinder) ≤ 1
  · have h₂ : ¬ m.status (.block .semgrep) ≤ 1 := fun h₂ => hb fun e => by cases e <;> assumption
    rw [if_pos h₁, andThen_next, if_neg h₂] at hrun
    exact kept_of_stop hrun rfl hcd hf (by omega) hc (Or.inr (by omega)) hown
  · rw [if_neg h₁] at hrun
    exact kept_of_stop hrun rfl hcd hf (by omega) hc (Or.inl (by simpa [logs] using hblock)) hown

end Stops

/-! ### The verdict -/

section Verdict

variable {m : Machine}

lemma blocked_sEnd : (sEnd m).blocked = true ↔ Finding m := by
  simp [sEnd, afterBlock, s₄, s₃, s₂, s₁, passed, logs, Finding, findings, or_assoc, exists_or,
    or_and_right]

lemma findings_subset : findings m ⊆ (sEnd m).ran := by
  intro c hc
  simp only [findings, List.mem_append, List.mem_cons, List.not_mem_nil, or_false] at hc
  simp only [sEnd, afterBlock, s₄, s₃, s₂, s₁, passed, logs, List.mem_append, List.mem_cons,
    List.not_mem_nil, or_false]
  tauto

lemma report_mem (e : Engine) : .report e ∈ (sEnd m).ran := by
  cases e <;> simp [sEnd, afterBlock, s₄, passed, logs]

lemma block_mem (e : Engine) : .block e ∈ (sEnd m).ran := by
  cases e <;> simp [sEnd, afterBlock, s₄, passed, logs]

lemma clean_of_completed {ran : List Command} (hc : Completed m) (hn : ¬ Finding m)
    (hran : (sEnd m).ran ⊆ ran) : Clean m ran := by
  refine ⟨fun c h => ⟨hran (findings_subset h), ?_⟩, fun e => ⟨hran (report_mem e), (hc.2.2 e).2.1⟩⟩
  by_contra h0
  exact hn ⟨c, h, h0⟩

lemma blocked_iff_of_completed {ran : List Command} (hc : Completed m)
    (hran : (sEnd m).ran ⊆ ran) : Blocked m ran ↔ Finding m := by
  constructor
  · rintro ⟨⟨c, h, -, h0⟩, -⟩
    exact ⟨c, h, h0⟩
  · rintro ⟨c, h, h0⟩
    exact ⟨⟨c, h, hran (findings_subset h), h0⟩, fun e => ⟨hran (report_mem e), (hc.2.2 e).1,
      (hc.2.2 e).2.1, hran (block_mem e), (hc.2.2 e).2.2⟩⟩

lemma kept_of_completed (hc : Completed m) : Kept m ↔ Sound m := by
  obtain ⟨⟨hcd, hf⟩, ha, hv, hl, -, -⟩ := completed_iff.mp hc
  have hown := ownStatus_of_collected ha hv hl
  have hrun := script_blocks hc
  rw [ending_run] at hrun
  by_cases hfind : Finding m
  · -- a finding: the script prints the logs and stops with status 1, unless `cat` fails
    rw [if_pos (blocked_sEnd.mpr hfind)] at hrun
    have hscan : scan m = (if m.status .rm = 0 then (if m.status .cat = 0 then 1 else m.status .cat)
        else m.status .rm, ((sEnd m).log .cat).log .rm) := by
      by_cases hcat : m.status .cat = 0
      · rw [if_pos hcat] at hrun ⊢
        exact scan_exited hrun rfl
      · rw [if_neg hcat] at hrun ⊢
        exact scan_exited hrun rfl
    -- the exit trap adds to what ran, and to nothing else
    have hran : (sEnd m).ran ⊆ (((sEnd m).log .cat).log .rm).ran := by
      intro c h
      simp [State.log, h]
    unfold Kept KeptBy Sound
    rw [hscan]
    simp only [blocked_iff_of_completed hc hran, hcd, hf, hc, hfind, hown]
    by_cases hr : m.status .rm = 0 <;> by_cases hcat : m.status .cat = 0 <;> simp [hr, hcat]
    all_goals omega
  · -- no finding: the status is that of the exit trap
    have hblocked : ¬ (sEnd m).blocked = true := fun h => hfind (blocked_sEnd.mp h)
    rw [if_neg hblocked] at hrun
    have hscan : scan m = (m.status .rm, (sEnd m).log .rm) := by
      unfold scan runScript
      simp only [hrun]
      have ht : (sEnd m).trapped = true := rfl
      simp only [trap, ht, if_true, run_external]
      by_cases hr : m.status .rm = 0
      · rw [if_pos hr, hr]
      · rw [if_neg hr]
    have hran : (sEnd m).ran ⊆ ((sEnd m).log .rm).ran := by
      intro c h
      simp [State.log, h]
    unfold Kept KeptBy Sound
    rw [hscan]
    simp only [blocked_iff_of_completed hc hran, clean_of_completed hc hfind hran, hcd, hf, hc, hfind,
      hown]
    simp
    omega

end Verdict

/-- **The exit codes keep the promise exactly when no command hands on a status that means something
else**, on every machine. -/
theorem kept_iff_sound (m : Machine) : Kept m ↔ Sound m := by
  by_cases hcd : m.status .cd = 0
  swap
  · exact kept_of_cd hcd
  by_cases hf : AllFound m
  swap
  · exact kept_of_missing hcd hf
  by_cases ha : Built m .asan
  swap
  · exact kept_of_asan hcd hf ha
  by_cases hv : Built m .valgrind
  swap
  · exact kept_of_valgrind hcd hf ha hv
  by_cases hl : Collected m
  swap
  · exact kept_of_collect hcd hf ha hv hl
  by_cases hr : ∀ e, Reported m e
  swap
  · exact kept_of_reports hcd hf ha hv hl hr
  by_cases hb : ∀ e, m.status (.block e) ≤ 1
  swap
  · exact kept_of_blocks hcd hf ha hv hl hr hb
  exact kept_of_completed (completed_iff.mpr ⟨⟨hcd, hf⟩, ha, hv, hl, hr, hb⟩)

/-- On a machine whose disk is full, `mktemp` fails with 1, and the script says that a finding
blocked although nothing was scanned. -/
theorem full_disk_not_kept :
    ¬ Kept ⟨fun c => if c = .mktemp .asan then 1 else 0, fun _ => true, fun _ => true,
      fun _ => true⟩ := by
  have hscan : (scan ⟨fun c => if c = .mktemp .asan then 1 else 0, fun _ => true, fun _ => true,
      fun _ => true⟩).1 = 1 := by decide +kernel
  intro h
  obtain ⟨-, he⟩ := h.2.1 hscan
  have hran := (he .flawfinder).1
  revert hran
  decide +kernel

end CSecureBuild.Gate.Contract
