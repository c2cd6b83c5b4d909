import CSecureBuild.Shell.Refinement

/-!
Who owns the recorded lines, from the first turn to the end of the process.

While the shell runs, `Holding` says that the ring owns the live copies. What `main` does behind its
loop lets the slots go one after the other (`wipe_all`), whichever way the loop was left, so nothing
is live at the end and every copy has its one entry in the ledger of releases.
-/

namespace CSecureBuild.Shell.Ownership

open CSecureBuild.CLib.Memory CSecureBuild.CLib.Stdio
open CSecureBuild.Shell.Process CSecureBuild.Shell.Hardened CSecureBuild.Shell.Reference
open CSecureBuild.Shell.Globals CSecureBuild.Shell.Refinement

/-! ### Behind the loop -/

lemma wipe_all {slots : List (Fin historySlots)} (hs : slots.Nodup) {heap : Heap}
    {what history : Fin historySlots → Option ℕ} {log : List (List UInt8)}
    (hw : ∀ i ∈ slots, what i = history i) (h : Holding heap history log) :
    ∃ h', slots.foldlM (fun heap i => wipeAndFree heap (what i)) heap = .ok h' ∧
      Holding h' (fun i => if i ∈ slots then none else history i) log := by
  induction slots generalizing heap history with
  | nil => exact ⟨heap, rfl, by simpa using h⟩
  | cons i slots ih =>
    obtain ⟨hi, hs⟩ := List.nodup_cons.mp hs
    obtain ⟨h₁, hfree, hold, -⟩ := wipeAndFree_slot h i
    have hw' : ∀ j ∈ slots, what j = Function.update history i none j := by
      intro j hj
      rw [Function.update_of_ne (by rintro rfl; exact hi hj)]
      exact hw j (List.mem_cons_of_mem i hj)
    obtain ⟨h', hrest, hold'⟩ := ih hs hw' hold
    refine ⟨h', ?_, ?_⟩
    · rw [List.foldlM_cons, hw i (by simp), hfree, ok_bind, hrest]
    · convert hold' using 2 with j
      by_cases hj : j = i
      · simp [hj]
      · simp [hj]

/-- What is left of the shell when `main` returns. -/
structure Wiped (m : Main) (log : List (List UInt8)) (e : Exit) : Prop where
  /-- No copy is live. -/
  none_live : ∀ p, ¬ e.heap.Live p
  /-- There is one copy for each recorded line. -/
  made : e.heap.blocks.length = log.length
  /-- Every copy was released once. -/
  once : ∀ p < e.heap.blocks.length, (e.heap.releases.map Prod.fst).count p = 1
  /-- When it was released, the copy held a zero for each byte of its line and one for the NUL. -/
  zeroed : ∀ r ∈ e.heap.releases, ∃ line, log[r.1]? = some line ∧
    r.2 = List.replicate (line.length + 1) 0
  /-- The truncated copy is gone. -/
  lastCommand : e.lastCommand = List.replicate historySize 0
  /-- The line buffer was wiped over its whole size. -/
  lineBuffer : e.releasedBuffer = m.inputBuffer.map fun b => List.replicate b.length 0
  out : e.out = m.shell.out
  status : e.status = m.status

/-- **What `main` does behind its loop.** -/
theorem teardown_spec {m : Main} {log : List (List UInt8)}
    (h : Holding m.shell.heap m.shell.history log) : ∃ e, teardown m = .ok e ∧ Wiped m log e := by
  obtain ⟨heap, hheap, hold⟩ := wipe_all (List.nodup_finRange historySlots)
    (fun i _ => rfl : ∀ i ∈ List.finRange historySlots, m.shell.history i = m.shell.history i) h
  have hnone : ∀ p, ¬ heap.Live p := by
    intro p hp
    obtain ⟨i, hi⟩ := (hold.owned.held p).mp hp
    simp at hi
  have honce : ∀ p < heap.blocks.length, (heap.releases.map Prod.fst).count p = 1 := by
    intro p hp
    refine List.count_eq_one_of_mem heap.once ?_
    by_contra hmem
    exact hnone p ⟨hp, hmem⟩
  have hlast := explicitBzero_length m.shell.lastCommand.bytes
  rw [m.shell.lastCommand.size] at hlast
  refine ⟨⟨heap, List.replicate historySize 0, m.inputBuffer.map fun b => List.replicate b.length 0,
    m.status, m.shell.out⟩, ?_, hnone, hold.made, honce, hold.wiped, rfl, rfl, rfl, rfl⟩
  unfold teardown wipeHistory
  cases m.inputBuffer with
  | none => simp only [pure_eq_ok, ok_bind, hheap, hlast, Option.map_none]
  | some buffer =>
    simp only [explicitBzero_length, pure_eq_ok, ok_bind, hheap, hlast, Option.map_some]

/-! ### From the first turn to the end -/

/-- **`main` returns** on every input, after at most one turn more than there are bytes. -/
theorem main_returns (lib : LibC) (env : Env) (stdin : Stdin) {n : ℕ}
    (hn : stdin.pending.length < n) :
    ∃ m e, turns lib env n (start stdin) = .ok m ∧ main lib env stdin n = .ok (some e) ∧
      Agrees m (Session.run lib env stdin n) ∧ Wiped m (Session.run lib env stdin n).log e := by
  obtain ⟨m, hm, hf⟩ := turns_follows lib env stdin n
  obtain ⟨e, he, hw⟩ := teardown_spec hf.agrees.window.holding
  have hdone : m.done = true := by
    rw [hf.agrees.done]
    exact turns_ended n hn
  refine ⟨m, e, hm, ?_, hf.agrees, hw⟩
  unfold main
  rw [hm, ok_bind, if_pos hdone, he]
  rfl

/-- **The recorded lines are owned and wiped.** After every turn the live copies are those the ring
points to, pairwise distinct and at most four, and a copy that was released held nothing but zeros;
and `main` returns with every copy released once and nothing readable left. -/
theorem recorded_lines_owned (lib : LibC) (env : Env) (stdin : Stdin) :
    (∀ n, ∃ m, turns lib env n (start stdin) = .ok m ∧
      m.shell.heap.blocks.length = (Session.run lib env stdin n).log.length ∧
      (∀ p, m.shell.heap.Live p ↔ ∃ i, m.shell.history i = some p) ∧
      (∀ i j p, m.shell.history i = some p → m.shell.history j = some p → i = j) ∧
      (∀ s : Finset ℕ, (∀ p ∈ s, m.shell.heap.Live p) → s.card ≤ 4) ∧
      ∀ r ∈ m.shell.heap.releases, ∃ line, (Session.run lib env stdin n).log[r.1]? = some line ∧
        r.2 = List.replicate (line.length + 1) 0) ∧
    ∀ n, stdin.pending.length < n →
      ∃ m e, turns lib env n (start stdin) = .ok m ∧ main lib env stdin n = .ok (some e) ∧
        (∀ p, ¬ e.heap.Live p) ∧
        e.heap.blocks.length = (Session.run lib env stdin n).log.length ∧
        (∀ p < e.heap.blocks.length, (e.heap.releases.map Prod.fst).count p = 1) ∧
        (∀ r ∈ e.heap.releases, ∃ line, (Session.run lib env stdin n).log[r.1]? = some line ∧
          r.2 = List.replicate (line.length + 1) 0) ∧
        e.lastCommand = List.replicate 32 0 ∧
        e.releasedBuffer = m.inputBuffer.map fun b => List.replicate b.length 0 := by
  constructor
  · intro n
    obtain ⟨m, hm, hf⟩ := turns_follows lib env stdin n
    have hold := hf.agrees.window.holding
    refine ⟨m, hm, hold.made, hold.owned.held, hold.owned.apart, fun s hs => ?_, hold.wiped⟩
    simpa using hold.owned.card_le s hs
  · intro n hn
    obtain ⟨m, e, hm, he, -, hw⟩ := main_returns lib env stdin hn
    exact ⟨m, e, hm, he, hw.none_live, hw.made, hw.once, hw.zeroed, hw.lastCommand, hw.lineBuffer⟩

end CSecureBuild.Shell.Ownership
