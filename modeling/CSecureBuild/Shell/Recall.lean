import CSecureBuild.Shell.Correctness

/-!
The argument of `recall`: what the builtin prints for a text that `parse_int` takes for a number, and for
any other.
-/

namespace CSecureBuild.Shell.Recall

open CSecureBuild.CLib.Memory CSecureBuild.CLib.Tokens CSecureBuild.CLib.Stdio CSecureBuild.CLib.Numbers
open CSecureBuild.Lib.Ring CSecureBuild.Shell.Process CSecureBuild.Shell.Hardened
open CSecureBuild.Shell.Reference CSecureBuild.Shell.Refinement CSecureBuild.Shell.Correctness
open CSecureBuild.Shell.Parsing

/-! ### The builtin -/

/-- What a slot shows. -/
def slotText (s : State) (i : Fin historySlots) : Except Fault (List UInt8) :=
  if s.slotUsed i = 0 then pure (ascii "recall: empty slot")
  else
    match s.history i with
    | none => pure (ascii "recall: empty slot")
    | some p => do
      let bytes ← s.heap.load p
      stringOf bytes

lemma recallSlot_slot (s : State) (i : Fin historySlots) :
    recallSlot s (i : ℕ) = (slotText s i).map (s.printed .recall) := by
  have hrange : ¬ ((i : ℕ) < (0 : ℤ) ∨ ((i : ℕ) : ℤ) ≥ historySlots) := by
    have := i.isLt
    omega
  unfold recallSlot slotText
  rw [if_neg hrange, Int.toNat_natCast, index_eq i.isLt, ok_bind]
  by_cases hused : s.slotUsed i = 0
  · rw [if_pos hused, if_pos hused]
    rfl
  · rw [if_neg hused, if_neg hused]
    cases s.history i with
    | none => rfl
    | some p =>
      cases hload : s.heap.load p with
      | error fault =>
        simp only [hload]
        rfl
      | ok bytes =>
        simp only [hload, ok_bind]
        cases stringOf bytes <;> rfl

section

variable {lib : LibC} {s : State} {buffer : List UInt8} {args : Args} {t : List UInt8}

lemma dispatch_recall (h0 : readEntry buffer args 0 = .ok (some (ascii "recall")))
    (h1 : readEntry buffer args 1 = .ok (some t)) :
    dispatchBuiltin lib s buffer args =
      if (parseInt lib t 0).1 = false then
        .ok (.continue, s.printed .recall (ascii "recall: slot must be a number"))
      else (recallSlot s (parseInt lib t 0).2).map fun s' => (.continue, s') := by
  unfold dispatchBuiltin
  rw [h0, ok_bind]
  simp only [if_neg (show ascii "recall" ≠ ascii "exit" by decide),
    if_neg (show ascii "recall" ≠ ascii "history" by decide), if_true, h1, ok_bind]
  cases parseInt lib t 0 with
  | mk number slot =>
    cases number with
    | false => rfl
    | true => cases recallSlot s slot <;> rfl

lemma dispatch_rejected (h0 : readEntry buffer args 0 = .ok (some (ascii "recall")))
    (h1 : readEntry buffer args 1 = .ok (some t)) (h : ∀ v, ¬ DenotesInt t v) :
    dispatchBuiltin lib s buffer args =
      .ok (.continue, s.printed .recall (ascii "recall: slot must be a number")) := by
  rw [dispatch_recall h0 h1, parseInt_rejects h, if_pos rfl]

lemma dispatch_outside {v : ℤ} (h0 : readEntry buffer args 0 = .ok (some (ascii "recall")))
    (h1 : readEntry buffer args 1 = .ok (some t)) (h : DenotesInt t v) (hv : v < 0 ∨ 3 < v) :
    dispatchBuiltin lib s buffer args =
      .ok (.continue, s.printed .recall (ascii "recall: slot out of range")) := by
  have hrange : v < 0 ∨ v ≥ historySlots := by
    simp only [historySlots]
    omega
  rw [dispatch_recall h0 h1, parseInt_accepts h, if_neg (by simp)]
  simp only [recallSlot, if_pos hrange]
  rfl

lemma dispatch_slot {i : Fin historySlots} (h0 : readEntry buffer args 0 = .ok (some (ascii "recall")))
    (h1 : readEntry buffer args 1 = .ok (some t)) (h : DenotesInt t (i : ℕ)) :
    dispatchBuiltin lib s buffer args =
      (slotText s i).map fun text => (.continue, s.printed .recall text) := by
  rw [dispatch_recall h0 h1, parseInt_accepts h, if_neg (by simp), recallSlot_slot]
  cases slotText s i <;> rfl

end

/-! ### Runs -/

/-- What `recall` prints for an argument when some lines are recorded. -/
inductive Recalls (log : List (List UInt8)) (t : List UInt8) : List UInt8 → Prop where
  | rejected (h : ∀ v, ¬ DenotesInt t v) : Recalls log t (ascii "recall: slot must be a number")
  | outside (v : ℤ) (h : DenotesInt t v) (hv : v < 0 ∨ 3 < v) :
    Recalls log t (ascii "recall: slot out of range")
  | slot (i : Fin 4) (h : DenotesInt t (i : ℕ)) :
    Recalls log t ((lastAt 4 log i).getD (ascii "recall: empty slot"))

lemma recalls_recallArgs (lib : LibC) (log : List (List UInt8)) (t : List UInt8) (args : List (List UInt8)) :
    Recalls log t (recallArgs lib log (t :: args)) := by
  unfold recallArgs recallNumber
  by_cases h : ∃ v, DenotesInt t v
  · obtain ⟨v, hv⟩ := h
    simp only [parseInt_accepts hv]
    unfold recallText
    by_cases hrange : v < 0 ∨ v ≥ historySlots
    · rw [if_pos hrange]
      simp only [historySlots] at hrange
      exact .outside v hv (by omega)
    · rw [if_neg hrange]
      simp only [historySlots] at hrange
      have hlt : v.toNat < 4 := by omega
      refine .slot ⟨v.toNat, hlt⟩ ?_
      rwa [Int.toNat_of_nonneg (by omega)]
  · simp only [parseInt_rejects (not_exists.mp h)]
    exact .rejected (not_exists.mp h)

lemma log_hear_recall {lib : LibC} {env : Env} {s : Session} {line : List UInt8} {args : List (List UInt8)}
    (ht : tokens blank line = ascii "recall" :: args) (hfew : args.length < maxArgs - 1) :
    (s.hear lib env line).log = s.log ++ [line] := by
  rw [hear_tokens ht]
  unfold Session.obey
  rw [if_neg (by rw [List.length_cons]; omega)]
  rfl

/-- **The argument of `recall` is parsed exactly**, whatever the width of `long`: `parse_int` accepts the
numerals of an `int` and nothing else, and writes nothing when it rejects. So `recall t` prints one message
for what is no number, another for a number that is no slot, and shows the slot otherwise, of which it
reads no other; in every turn of every run it does so without a fault, and what it leaves of the history
is the line itself. -/
theorem recall_exact :
    (∀ lib text out,
      ((parseInt lib text out).1 = true ↔ ∃ v, DenotesInt text v) ∧
      (∀ v, DenotesInt text v → (parseInt lib text out).2 = v) ∧
      ((parseInt lib text out).1 = false → (parseInt lib text out).2 = out)) ∧
    (∀ lib s buffer args t, readEntry buffer args 0 = .ok (some (ascii "recall")) →
      readEntry buffer args 1 = .ok (some t) →
      ((∀ v, ¬ DenotesInt t v) → dispatchBuiltin lib s buffer args =
        .ok (.continue, s.printed .recall (ascii "recall: slot must be a number"))) ∧
      (∀ v, DenotesInt t v → v < 0 ∨ 3 < v → dispatchBuiltin lib s buffer args =
        .ok (.continue, s.printed .recall (ascii "recall: slot out of range"))) ∧
      ∀ i : Fin historySlots, DenotesInt t (i : ℕ) → dispatchBuiltin lib s buffer args =
        (slotText s i).map fun text => (.continue, s.printed .recall text)) ∧
    ∀ lib env stdin n, ∃ m m', turns lib env n (start stdin) = .ok m ∧
      turns lib env (n + 1) (start stdin) = .ok m' ∧
      ∀ raw rest t args, m.done = false →
        nextLine (stdin.drops lib) (Session.run lib env stdin n).pending = some (raw, rest) →
        args.length < 62 → tokens blank (lineText raw) = ascii "recall" :: t :: args →
        Mirrors m'.shell ((Session.run lib env stdin n).log ++ [lineText raw]) ∧
        ∃ text, m'.shell.out = m.shell.out ++ [prompt, .printed .recall text] ∧
          Recalls ((Session.run lib env stdin n).log ++ [lineText raw]) t text := by
  refine ⟨fun lib text out => ⟨parseInt_iff, fun v hv => ?_, fun hfalse => ?_⟩,
    fun lib s buffer args t h0 h1 => ⟨dispatch_rejected h0 h1, fun v hv hout => dispatch_outside h0 h1 hv hout,
      fun i hi => dispatch_slot h0 h1 hi⟩, fun lib env stdin n => ?_⟩
  · rw [parseInt_accepts hv]
  · rw [parseInt_rejects fun v hv => ?_]
    rw [parseInt_accepts hv] at hfalse
    cases hfalse
  · obtain ⟨m, hm, hf⟩ := turns_follows lib env stdin n
    obtain ⟨m', hm', hf'⟩ := turns_follows lib env stdin (n + 1)
    refine ⟨m, m', hm, hm', ?_⟩
    intro raw rest t args hd hline hfew htoks
    rw [hf.agrees.done] at hd
    have hturn : Session.run lib env stdin (n + 1) =
        { (Session.run lib env stdin n).print [prompt] with pending := rest }.hear lib env
          (lineText raw) := turn_line hd hline
    -- what the turn prints, and what it records
    have hout := hf'.agrees.out
    have hwindow := hf'.agrees.window
    have hfew' : (t :: args).length < maxArgs - 1 := by
      simp only [List.length_cons, maxArgs]
      omega
    rw [hturn, out_hear_recall htoks hfew'] at hout
    rw [hturn, log_hear_recall htoks hfew'] at hwindow
    refine ⟨mirrors_of_window hwindow, _, ?_, recalls_recallArgs lib _ t args⟩
    · rw [hf.agrees.out, hout]
      simp [Session.print]

end CSecureBuild.Shell.Recall
