import CSecureBuild.Shell.Ownership

/-!
What the hardened shell is for, said about `main` itself: its globals mirror the log of the lines
recorded so far, its builtins print what the log says, and its actions are those of the reference
session, on any input and whatever the kernel answers.
-/

namespace CSecureBuild.Shell.Correctness

open CSecureBuild.CLib.Memory CSecureBuild.CLib.Tokens CSecureBuild.CLib.Stdio
open CSecureBuild.Lib.Ring CSecureBuild.Shell.Process CSecureBuild.Shell.Hardened
open CSecureBuild.Shell.Reference CSecureBuild.Shell.Globals CSecureBuild.Shell.Refinement
open CSecureBuild.Shell.Ownership CSecureBuild.Shell.Parsing

/-! ### The history -/

/-- The globals of the shell mirror a log, slot for slot. -/
structure Mirrors (s : State) (log : List (List UInt8)) : Prop where
  next : s.historyNext = log.length % 4
  next_lt : s.historyNext < 4
  /-- A slot that a position of the log falls on holds a copy of the last such line. -/
  taken : ∀ i line, lastAt 4 log (i : Fin 4) = some line →
    s.slotUsed i ≠ 0 ∧ ∃ p, s.history i = some p ∧ s.heap.load p = .ok (line ++ [0])
  /-- The other slots are empty. -/
  empty : ∀ i, lastAt 4 log (i : Fin 4) = none → s.history i = none ∧ s.slotUsed i = 0
  /-- The truncated copy is a string inside its 32 bytes: the line before the last one, cut. -/
  last : stringOf s.lastCommand.bytes = .ok ((log.dropLast.getLast?.getD []).take 31)

lemma mirrors_of_window {s : State} {log : List (List UInt8)} (h : Window s log) :
    Mirrors s log where
  next := h.ring.next_eq
  next_lt := h.ring.next_lt (by decide)
  taken := by
    intro i line hline
    rw [← h.ring.slots_eq, Option.map_eq_some_iff] at hline
    obtain ⟨p, hp, htext⟩ := hline
    obtain ⟨text, -, hc⟩ := h.holding.copies i p hp
    rw [hc.text] at htext
    refine ⟨(h.used i).mpr (by rw [hp]; simp), p, hp, ?_⟩
    rw [Heap.load_eq (h.holding.live hp), hc.1, htext]
  empty := by
    intro i hi
    rw [← h.ring.slots_eq, Option.map_eq_none_iff] at hi
    refine ⟨hi, ?_⟩
    by_contra hused
    exact (h.used i).mp hused hi
  last := by
    obtain ⟨rest, hrest⟩ := h.last
    rw [hrest, stringOf_append_nul (zero_notMem_historyText h.clean)]
    rfl

/-- The arguments of `recall` ask for a slot: there are none, or the first denotes its number. -/
def Asks (args : List (List UInt8)) (k : ℤ) : Prop :=
  match args with
  | [] => k = 0
  | arg :: _ => DenotesInt arg k

lemma recallNumber_of_asks {args : List (List UInt8)} {k : ℤ} (h : Asks args k) (lib : LibC) :
    recallNumber lib args = some k := by
  cases args with
  | nil => exact congrArg some (Eq.symm h)
  | cons arg args =>
    have hk : DenotesInt arg k := h
    simp only [recallNumber, parseInt_accepts hk]

/-- **The history ring refines the log.** After every turn the globals mirror the log of the recorded
lines; a `history` line prints the line before itself, cut to 31 bytes, and a `recall` line prints the
last line of the residue class it asks for, itself included, unless the log is too short. -/
theorem history_refines_log (lib : LibC) (env : Env) (stdin : Stdin) (n : ℕ) :
    ∃ m m', turns lib env n (start stdin) = .ok m ∧ turns lib env (n + 1) (start stdin) = .ok m' ∧
      Mirrors m.shell (Session.run lib env stdin n).log ∧
      ∀ raw rest args, m.done = false →
        nextLine (stdin.drops lib) (Session.run lib env stdin n).pending = some (raw, rest) →
        args.length < 63 →
        (tokens blank (lineText raw) = ascii "history" :: args →
          m'.shell.out = m.shell.out ++ [prompt, .printed .history
            (((Session.run lib env stdin n).log.getLast?.getD []).take 31)]) ∧
        ∀ k : ℤ, 0 ≤ k → k < 4 → tokens blank (lineText raw) = ascii "recall" :: args →
          Asks args k →
          m'.shell.out = m.shell.out ++ [prompt, .printed .recall
            ((lastAt 4 ((Session.run lib env stdin n).log ++ [lineText raw]) k.toNat).getD
              (ascii "recall: empty slot"))] ∧
          (lastAt 4 ((Session.run lib env stdin n).log ++ [lineText raw]) k.toNat = none ↔
            ((Session.run lib env stdin n).log.length + 1 : ℤ) ≤ k) := by
  obtain ⟨m, hm, hf⟩ := turns_follows lib env stdin n
  obtain ⟨m', hm', hf'⟩ := turns_follows lib env stdin (n + 1)
  refine ⟨m, m', hm, hm', mirrors_of_window hf.agrees.window, ?_⟩
  intro raw rest args hd hline hfew
  rw [hf.agrees.done] at hd
  -- the turn of the reference that goes with the next turn
  have hturn : Session.run lib env stdin (n + 1) =
      { (Session.run lib env stdin n).print [prompt] with pending := rest }.hear lib env
        (lineText raw) := turn_line hd hline
  rw [hf.agrees.out, hf'.agrees.out, hturn]
  constructor
  · intro htoks
    rw [out_hear_history htoks hfew]
    simp [historyText, historySize, Session.print]
  · -- an accepted number is the one that is denoted, and names a slot
    intro k hk0 hk4 htoks hasks
    have hnumber := recallNumber_of_asks hasks lib
    have hslot : ¬ (k < 0 ∨ k ≥ historySlots) := by simp only [historySlots]; omega
    have hlt : k.toNat < 4 := by omega
    constructor
    · rw [out_hear_recall htoks hfew]
      simp only [recallArgs, hnumber, recallText, if_neg hslot, Session.print, List.append_assoc,
        List.singleton_append]
    · rw [lastAt_eq_none_iff hlt, List.length_append, List.length_singleton]
      omega

/-! ### The commands -/

/-- **The shell does what the reference session does**, whatever the input and the kernel's answers:
turn for turn its actions, the input it leaves, and its status are those of the session; a line hands
its own vector to `execvp` at most once; the kernel's answers change nothing for later lines; and
`main` returns. -/
theorem repl_follows_session (lib : LibC) (env : Env) (stdin : Stdin) :
    (∀ n, ∃ m, turns lib env n (start stdin) = .ok m ∧
      m.shell.out = (Session.run lib env stdin n).out ∧
      m.done = (Session.run lib env stdin n).ended ∧
      m.status = (Session.run lib env stdin n).status ∧
      (m.left = false → m.stdin.pending = (Session.run lib env stdin n).pending)) ∧
    (∀ n raw rest, (Session.run lib env stdin n).ended = false →
      nextLine (stdin.drops lib) (Session.run lib env stdin n).pending = some (raw, rest) →
      execs (Session.run lib env stdin (n + 1)).out = execs (Session.run lib env stdin n).out ++
        match command (lineText raw) with
        | some argv => if env (Session.run lib env stdin n).forks = .failed then [] else [argv]
        | none => []) ∧
    (∀ env' n, Alike (Session.run lib env stdin n) (Session.run lib env' stdin n)) ∧
    ∀ n, stdin.pending.length < n → ∃ e, main lib env stdin n = .ok (some e) ∧
      e.out = (Session.run lib env stdin n).out ∧
      e.status = (Session.run lib env stdin n).status := by
  refine ⟨fun n => ?_, fun n raw rest hended hline => ?_, fun env' n => alike_run lib env env' stdin n,
    fun n hn => ?_⟩
  · obtain ⟨m, hm, hf⟩ := turns_follows lib env stdin n
    exact ⟨m, hm, hf.agrees.out, hf.agrees.done, hf.agrees.status, hf.pending⟩
  · have hturn : Session.run lib env stdin (n + 1) =
        { (Session.run lib env stdin n).print [prompt] with pending := rest }.hear lib env
          (lineText raw) := turn_line hended hline
    rw [hturn, execs_hear]
    congr 1
    exact (execs_append _ _).trans (List.append_nil _)
  · obtain ⟨m, e, hm, he, ha, hw⟩ := main_returns lib env stdin hn
    exact ⟨e, he, hw.out.trans ha.out, hw.status.trans ha.status⟩

end CSecureBuild.Shell.Correctness
