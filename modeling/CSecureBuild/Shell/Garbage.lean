import CSecureBuild.Shell.Vuln

/-!
What `malloc` left in the flags of the vulnerable shell is never seen: two runs that differ in nothing
but these four numbers do the same, turn for turn, up to and with the turn that faults, if one does.

The two states of such runs differ in the flags only (`Unseen`), and there only in slots that hold no
copy: `recall_slot` asks both the flag and the pointer, and `record_history` sets both.
-/

namespace CSecureBuild.Shell.Garbage

open CSecureBuild.CLib.Memory CSecureBuild.CLib.Stdio
open CSecureBuild.Shell.Process CSecureBuild.Shell.Vuln

/-- Two states that differ in flags only, and in none that a copy stands behind. -/
def Unseen (s t : State) : Prop :=
  ∃ flags, t = { s with slotUsed := flags } ∧
    ∀ i, s.history i ≠ none → s.slotUsed i ≠ 0 ∧ flags i ≠ 0

/-- The same for a state of `main`. -/
def UnseenMain (m k : Main) : Prop := ∃ t, Unseen m.shell t ∧ k = { m with shell := t }

lemma unseen_print {s t : State} (h : Unseen s t) (out : List Event) (forks : ℕ) :
    Unseen { s with out, forks } { t with out, forks } := by
  obtain ⟨flags, rfl, hf⟩ := h
  exact ⟨flags, rfl, hf⟩

/-! ### The functions that touch the flags -/

lemma recordHistory_unseen {s t : State} (h : Unseen s t) (input : List UInt8) :
    Related Unseen (recordHistory s input) (recordHistory t input) := by
  obtain ⟨flags, rfl, hf⟩ := h
  unfold recordHistory
  refine Related.same _ fun text => Related.same _ fun last => Related.same _ fun slot =>
    Related.same _ fun copy => ?_
  simp only
  split_ifs with hmax
  · rfl
  · refine ⟨Function.update flags slot 1, rfl, fun i hi => ?_⟩
    by_cases his : i = slot
    · simp [his]
    · simp only [Function.update_of_ne his] at hi ⊢
      exact hf i hi

lemma recallSlot_unseen {s t : State} (h : Unseen s t) (slot : ℤ) :
    Related Unseen (recallSlot s slot) (recallSlot t slot) := by
  have hprint : ∀ text, Unseen (s.printed .recall text) (t.printed .recall text) := by
    obtain ⟨flags, rfl, hf⟩ := h
    exact fun text => ⟨flags, rfl, hf⟩
  obtain ⟨flags, rfl, hf⟩ := h
  unfold recallSlot
  split_ifs with hr
  · exact hprint _
  · refine Related.same _ fun i => ?_
    cases hi : s.history i with
    | none =>
      -- no copy: both print the same text, whatever the flags say
      split_ifs <;> exact hprint _
    | some p =>
      obtain ⟨h1, h2⟩ := hf i (by simp [hi])
      rw [if_neg h1, if_neg h2]
      exact Related.same _ fun bytes => Related.same _ fun text => hprint text

lemma showHistory_unseen (lib : LibC) {s t : State} (h : Unseen s t) (format : List UInt8) :
    Related Unseen (showHistory lib s format) (showHistory lib t format) := by
  obtain ⟨flags, rfl, hf⟩ := h
  unfold showHistory
  exact Related.same _ fun last => Related.same _ fun text => ⟨flags, rfl, hf⟩

/-! ### Turns and runs -/

lemma executeCommand_unseen (env : Env) {m k : Main} (h : UnseenMain m k) (buffer : List UInt8)
    (args : Args) :
    Related UnseenMain (executeCommand env m buffer args) (executeCommand env k buffer args) := by
  obtain ⟨t, ht, rfl⟩ := h
  have hpart := ht
  obtain ⟨flags, rfl, hf⟩ := hpart
  unfold executeCommand
  refine Related.same _ fun name => ?_
  cases name with
  | none => exact ⟨_, ht, rfl⟩
  | some name =>
    simp only
    cases env m.shell.forks with
    | failed => exact ⟨_, unseen_print ht _ _, rfl⟩
    | child execvp waitpid => exact Related.same _ fun argv => ⟨_, unseen_print ht _ _, rfl⟩

lemma runLine_unseen (lib : LibC) (env : Env) {m k : Main} (h : UnseenMain m k)
    (buffer : List UInt8) : Related UnseenMain (runLine lib env m buffer) (runLine lib env k buffer) := by
  obtain ⟨t, ht, rfl⟩ := h
  unfold runLine
  refine Related.same _ fun length => ?_
  split_ifs with hlen
  · exact ⟨t, ht, rfl⟩
  refine Related.bind (recordHistory_unseen ht buffer) fun s s' hs => ?_
  refine Related.same _ fun parsed => Related.same _ fun name => ?_
  split_ifs with hexit hhist hrec
  · exact ⟨s', hs, rfl⟩
  · exact Related.same _ fun arg =>
      Related.bind (showHistory_unseen lib hs _) fun s₁ s₁' h₁ => ⟨s₁', h₁, rfl⟩
  · exact Related.same _ fun arg => Related.same _ fun slot =>
      Related.bind (recallSlot_unseen hs _) fun s₁ s₁' h₁ => ⟨s₁', h₁, rfl⟩
  · exact executeCommand_unseen env ⟨s', hs, rfl⟩ _ _

lemma turn_unseen (lib : LibC) (env : Env) {m k : Main} (h : UnseenMain m k) :
    Related UnseenMain (turn lib env m) (turn lib env k) := by
  obtain ⟨t, ht, rfl⟩ := h
  have hpart := ht
  obtain ⟨flags, rfl, hf⟩ := hpart
  unfold turn
  split_ifs with hleft
  · exact ⟨_, ht, rfl⟩
  unfold loopBody
  simp only
  cases (getline lib m.inputBuffer m.stdin).bytesRead with
  | none => exact ⟨_, unseen_print ht _ _, rfl⟩
  | some bytesRead =>
    cases (getline lib m.inputBuffer m.stdin).buffer with
    | none => rfl
    | some buffer =>
      refine runLine_unseen lib env ?_ _
      exact ⟨_, unseen_print ht (m.shell.out ++ [prompt]) m.shell.forks, rfl⟩

/-- **The garbage in the flags is never seen.** -/
theorem turns_unseen (lib : LibC) (env : Env) (garbage garbage' : Fin historySlots → ℤ)
    (stdin : Stdin) (n : ℕ) :
    Related UnseenMain (turns lib env n (start garbage stdin))
      (turns lib env n (start garbage' stdin)) := by
  induction n with
  | zero => exact ⟨_, ⟨garbage', rfl, fun i hi => absurd rfl hi⟩, rfl⟩
  | succ n ih =>
    unfold turns
    exact Related.bind ih fun m k h => turn_unseen lib env h

end CSecureBuild.Shell.Garbage
