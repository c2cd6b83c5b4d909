import CSecureBuild.Lib.Ring
import CSecureBuild.Shell.Hardened

/-!
What a session with the shell is, without its memory: the lines recorded so far are a log that only
grows, a line is a text and its tokens are the maximal runs of bytes between blanks. There is no
ring, no flag, no buffer and no pointer here; `Refinement` connects this to the program.
-/

namespace CSecureBuild.Shell.Reference

open CSecureBuild.CLib.Memory CSecureBuild.CLib.Tokens CSecureBuild.CLib.Stdio
open CSecureBuild.Lib.Ring CSecureBuild.Shell.Process

/-- A session: the bytes still to come, the lines recorded so far, the number of `fork` calls, what
was done, and whether it is over, and with which status. -/
structure Session where
  pending : List UInt8
  log : List (List UInt8)
  forks : ℕ
  out : List Event
  ended : Bool
  status : ℕ

/-- A session that has not begun. -/
def Session.start (input : List UInt8) : Session := ⟨input, [], 0, [], false, 0⟩

/-- A line up to its first NUL or line end. -/
def lineText (raw : List UInt8) : List UInt8 :=
  raw.takeWhile fun c => decide (c ≠ 0) && decide (c ≠ newline)

/-- What `history` prints: the line before the last one of the log, cut to 31 bytes. -/
def historyText (log : List (List UInt8)) : List UInt8 :=
  (log.dropLast.getLast?.getD []).take (historySize - 1)

/-- What `recall` prints for a number: the last line of the log at a position of its residue class.
-/
def recallText (log : List (List UInt8)) (slot : ℤ) : List UInt8 :=
  if slot < 0 ∨ slot ≥ historySlots then ascii "recall: slot out of range"
  else (lastAt historySlots log slot.toNat).getD (ascii "recall: empty slot")

/-- The number `recall` is given by its arguments, if it is one. -/
def recallNumber (lib : LibC) : List (List UInt8) → Option ℤ
  | [] => some 0
  | arg :: _ =>
    match Hardened.parseInt lib arg 0 with
    | (true, slot) => some slot
    | (false, _) => none

/-- What `recall` prints for its arguments. -/
def recallArgs (lib : LibC) (log : List (List UInt8)) (args : List (List UInt8)) : List UInt8 :=
  match recallNumber lib args with
  | some slot => recallText log slot
  | none => ascii "recall: slot must be a number"

/-- The argument vector a line asks for: all its tokens, unless there are none or too many, or the
first one is the name of a builtin. -/
def command (line : List UInt8) : Option (List (List UInt8)) :=
  let toks := tokens blank line
  if maxArgs - 1 < toks.length ∨ toks = [] ∨
      toks.head? ∈ [some (ascii "exit"), some (ascii "history"), some (ascii "recall")] then none
  else some toks

/-- What a command does, whatever the kernel answers: one child hands its tokens to `execvp`, unless
there is no child. -/
def commandEvents (argv : List (List UInt8)) : Fork → List Event
  | .failed => [.reported (ascii "fork failed")]
  | .child execvp waitpid => Hardened.runChild argv execvp ++ Hardened.awaitChild waitpid

/-- Events at the end of a session. -/
def Session.print (s : Session) (events : List Event) : Session := { s with out := s.out ++ events }

/-- Obeying the tokens of a line that was recorded. -/
def Session.obey (lib : LibC) (env : Env) (s : Session) (toks : List (List UInt8)) : Session :=
  if maxArgs - 1 < toks.length then s.print [.printed .main (ascii "too many arguments")]
  else
    match toks with
    | [] => s
    | name :: args =>
      if name = ascii "exit" then { s with ended := true }
      else if name = ascii "history" then s.print [.printed .history (historyText s.log)]
      else if name = ascii "recall" then s.print [.printed .recall (recallArgs lib s.log args)]
      else { s.print (commandEvents (name :: args) (env s.forks)) with forks := s.forks + 1 }

/-- A line of the input: an empty one is skipped, any other is recorded and obeyed. -/
def Session.hear (lib : LibC) (env : Env) (s : Session) (line : List UInt8) : Session :=
  if line = [] then s
  else { s with log := s.log ++ [line] }.obey lib env (tokens blank line)

/-- The end of the input, which may be a read error. -/
def Session.stop (broken : Bool) (s : Session) : Session :=
  { s.print ((if broken then [.reported (ascii "getline failed")] else []) ++
      [.printed .main (ascii "\nExiting...")]) with
    ended := true
    status := if broken then 1 else s.status }

/-- One turn of a session: a prompt, and what comes next. `drops` says that the implementation drops
an unfinished last line, `broken` that the input ends in a read error. -/
def Session.turn (lib : LibC) (env : Env) (drops broken : Bool) (s : Session) : Session :=
  if s.ended then s
  else
    match nextLine drops s.pending with
    | none => (s.print [prompt]).stop broken
    | some (raw, rest) => { s.print [prompt] with pending := rest }.hear lib env (lineText raw)

/-- `n` turns of a session. -/
def Session.turns (lib : LibC) (env : Env) (drops broken : Bool) : ℕ → Session → Session
  | 0, s => s
  | n + 1, s => (Session.turns lib env drops broken n s).turn lib env drops broken

/-- `n` turns of a session on a stream. -/
def Session.run (lib : LibC) (env : Env) (stdin : Stdin) (n : ℕ) : Session :=
  Session.turns lib env (stdin.drops lib) stdin.broken n (Session.start stdin.pending)

variable {lib : LibC} {env : Env} {drops broken : Bool} {s : Session}

lemma zero_notMem_lineText (raw : List UInt8) : (0 : UInt8) ∉ lineText raw := by
  intro h
  have := List.mem_takeWhile_imp h
  simp at this

/-! ### What a line does -/

lemma execs_append (out events : List Event) : execs (out ++ events) = execs out ++ execs events :=
  List.filterMap_append

lemma execs_commandEvents (argv : List (List UInt8)) (fork : Fork) :
    execs (commandEvents argv fork) = if fork = .failed then [] else [argv] := by
  have hwait : ∀ waitpid, execs (Hardened.awaitChild waitpid) = [] := by
    intro waitpid
    induction waitpid with
    | interrupted next ih => exact ih
    | reaped => rfl
    | failed => rfl
  cases fork with
  | failed => rfl
  | child execvp waitpid =>
    unfold commandEvents
    rw [execs_append, hwait, if_neg (by simp)]
    cases execvp <;> rfl

/-- **A line hands on its own vector once, or nothing.** -/
theorem execs_hear (line : List UInt8) :
    execs (s.hear lib env line).out = execs s.out ++
      match command line with
      | some argv => if env s.forks = .failed then [] else [argv]
      | none => [] := by
  unfold Session.hear
  by_cases hempty : line = []
  · subst hempty
    have : command [] = none := rfl
    rw [this]
    simp
  rw [if_neg hempty]
  unfold Session.obey command Session.print
  simp only
  by_cases hmany : maxArgs - 1 < (tokens blank line).length
  · rw [if_pos hmany, if_pos (Or.inl hmany)]
    exact execs_append _ _
  rw [if_neg hmany]
  cases htoks : tokens blank line with
  | nil => simp
  | cons name args =>
    rw [htoks] at hmany
    simp only
    by_cases hexit : name = ascii "exit"
    · simp [hexit]
    by_cases hhist : name = ascii "history"
    · rw [if_neg hexit, if_pos hhist, if_pos (by simp [hhist])]
      exact execs_append _ _
    by_cases hrec : name = ascii "recall"
    · rw [if_neg hexit, if_neg hhist, if_pos hrec, if_pos (by simp [hrec])]
      exact execs_append _ _
    rw [if_neg hexit, if_neg hhist, if_neg hrec,
      if_neg (by simpa [hexit, hhist, hrec] using hmany)]
    simp only [execs_append, execs_commandEvents]

lemma turn_line {raw rest : List UInt8} (he : s.ended = false)
    (hl : nextLine drops s.pending = some (raw, rest)) :
    s.turn lib env drops broken =
      { s.print [prompt] with pending := rest }.hear lib env (lineText raw) := by
  unfold Session.turn
  rw [if_neg (by simp [he]), hl]

lemma hear_tokens {line name : List UInt8} {args : List (List UInt8)}
    (ht : tokens blank line = name :: args) :
    s.hear lib env line = { s with log := s.log ++ [line] }.obey lib env (name :: args) := by
  have hne : line ≠ [] := by
    rintro rfl
    rw [tokens_nil] at ht
    cases ht
  unfold Session.hear
  rw [if_neg hne, ht]

/-- What a `history` line prints. -/
theorem out_hear_history {line : List UInt8} {args : List (List UInt8)}
    (ht : tokens blank line = ascii "history" :: args) (hfew : args.length < maxArgs - 1) :
    (s.hear lib env line).out =
      s.out ++ [.printed .history (historyText (s.log ++ [line]))] := by
  rw [hear_tokens ht]
  unfold Session.obey
  rw [if_neg (by rw [List.length_cons]; omega)]
  rfl

/-- What a `recall` line prints. -/
theorem out_hear_recall {line : List UInt8} {args : List (List UInt8)}
    (ht : tokens blank line = ascii "recall" :: args) (hfew : args.length < maxArgs - 1) :
    (s.hear lib env line).out =
      s.out ++ [.printed .recall (recallArgs lib (s.log ++ [line]) args)] := by
  rw [hear_tokens ht]
  unfold Session.obey
  rw [if_neg (by rw [List.length_cons]; omega)]
  rfl

/-! ### What the kernel's answers do not change -/

/-- The texts a session printed, in order. -/
def shown (out : List Event) : List Event :=
  out.filter fun
    | .printed _ _ => true
    | _ => false

/-- Two sessions that differ at most in what became of their commands. -/
structure Alike (s s' : Session) : Prop where
  pending : s.pending = s'.pending
  log : s.log = s'.log
  forks : s.forks = s'.forks
  shown : shown s.out = shown s'.out
  ended : s.ended = s'.ended
  status : s.status = s'.status

lemma shown_append (out events : List Event) :
    shown (out ++ events) = shown out ++ shown events :=
  List.filter_append ..

lemma shown_commandEvents (argv : List (List UInt8)) (fork : Fork) :
    shown (commandEvents argv fork) = [] := by
  have hwait : ∀ waitpid, shown (Hardened.awaitChild waitpid) = [] := by
    intro waitpid
    induction waitpid with
    | interrupted next ih => exact ih
    | reaped => rfl
    | failed => rfl
  cases fork with
  | failed => rfl
  | child execvp waitpid =>
    unfold commandEvents
    rw [shown_append, hwait, List.append_nil]
    cases execvp <;> rfl

lemma Alike.print {s s' : Session} (h : Alike s s') {events events' : List Event}
    (he : Reference.shown events = Reference.shown events') : Alike (s.print events) (s'.print events') :=
  ⟨h.pending, h.log, h.forks, by simp only [Session.print, shown_append, h.shown, he], h.ended,
    h.status⟩

lemma Alike.obey {s s' : Session} (h : Alike s s') (lib : LibC) (env env' : Env)
    (toks : List (List UInt8)) : Alike (s.obey lib env toks) (s'.obey lib env' toks) := by
  unfold Session.obey
  by_cases hmany : maxArgs - 1 < toks.length
  · rw [if_pos hmany, if_pos hmany]
    exact h.print rfl
  rw [if_neg hmany, if_neg hmany]
  cases toks with
  | nil => exact h
  | cons name args =>
    simp only
    by_cases hexit : name = ascii "exit"
    · rw [if_pos hexit, if_pos hexit]
      exact ⟨h.pending, h.log, h.forks, h.shown, rfl, h.status⟩
    rw [if_neg hexit, if_neg hexit]
    by_cases hhist : name = ascii "history"
    · rw [if_pos hhist, if_pos hhist, h.log]
      exact h.print rfl
    rw [if_neg hhist, if_neg hhist]
    by_cases hrec : name = ascii "recall"
    · rw [if_pos hrec, if_pos hrec, h.log]
      exact h.print rfl
    rw [if_neg hrec, if_neg hrec]
    have hp := h.print ((shown_commandEvents (name :: args) (env s.forks)).trans
      (shown_commandEvents (name :: args) (env' s'.forks)).symm)
    exact ⟨hp.pending, hp.log, by rw [h.forks], hp.shown, hp.ended, hp.status⟩

lemma Alike.record {s s' : Session} (h : Alike s s') (line : List UInt8) :
    Alike { s with log := s.log ++ [line] } { s' with log := s'.log ++ [line] } :=
  ⟨h.pending, by simp only [h.log], h.forks, h.shown, h.ended, h.status⟩

lemma Alike.read {s s' : Session} (h : Alike s s') (rest : List UInt8) :
    Alike { s with pending := rest } { s' with pending := rest } :=
  ⟨rfl, h.log, h.forks, h.shown, h.ended, h.status⟩

lemma Alike.hear {s s' : Session} (h : Alike s s') (lib : LibC) (env env' : Env)
    (line : List UInt8) : Alike (s.hear lib env line) (s'.hear lib env' line) := by
  unfold Session.hear
  by_cases hempty : line = []
  · rw [if_pos hempty, if_pos hempty]
    exact h
  rw [if_neg hempty, if_neg hempty]
  exact (h.record line).obey lib env env' _

/-- **The outcome of a command changes nothing for the lines that follow.** -/
theorem Alike.turn {s s' : Session} (h : Alike s s') (lib : LibC) (env env' : Env)
    (drops broken : Bool) : Alike (s.turn lib env drops broken) (s'.turn lib env' drops broken) := by
  unfold Session.turn
  rw [h.ended, h.pending]
  cases s'.ended with
  | true => exact h
  | false =>
    simp only [Bool.false_eq_true, if_false]
    cases nextLine drops s'.pending with
    | none =>
      have hp := h.print (rfl : Reference.shown [prompt] = Reference.shown [prompt])
      refine ⟨hp.pending, hp.log, hp.forks, ?_, rfl, ?_⟩
      · simp only [Session.stop, Session.print, shown_append, h.shown]
      · simp only [Session.stop, Session.print, h.status]
    | some p =>
      obtain ⟨raw, rest⟩ := p
      have hp := h.print (rfl : Reference.shown [prompt] = Reference.shown [prompt])
      exact (hp.read rest).hear lib env env' _

theorem alike_run (lib : LibC) (env env' : Env) (stdin : Stdin) (n : ℕ) :
    Alike (Session.run lib env stdin n) (Session.run lib env' stdin n) := by
  unfold Session.run
  induction n with
  | zero => exact ⟨rfl, rfl, rfl, rfl, rfl, rfl⟩
  | succ n ih => exact ih.turn lib env env' _ _

/-! ### How a session grows -/

lemma log_obey (toks : List (List UInt8)) : (s.obey lib env toks).log = s.log := by
  unfold Session.obey Session.print
  split
  · rfl
  · split
    · rfl
    · split_ifs <;> rfl

lemma log_hear (line : List UInt8) :
    (s.hear lib env line).log = if line = [] then s.log else s.log ++ [line] := by
  unfold Session.hear
  split_ifs
  · rfl
  · rw [log_obey]

lemma pending_obey (toks : List (List UInt8)) : (s.obey lib env toks).pending = s.pending := by
  unfold Session.obey Session.print
  split
  · rfl
  · split
    · rfl
    · split_ifs <;> rfl

lemma pending_hear (line : List UInt8) : (s.hear lib env line).pending = s.pending := by
  unfold Session.hear
  split_ifs
  · rfl
  · rw [pending_obey]

lemma turn_progress (lib : LibC) (env : Env) (drops broken : Bool) (h : s.ended = false) :
    (s.turn lib env drops broken).ended = true ∨
      (s.turn lib env drops broken).pending.length < s.pending.length := by
  unfold Session.turn
  rw [if_neg (by simp [h])]
  cases hn : nextLine drops s.pending with
  | none => exact Or.inl rfl
  | some p =>
    right
    simp only
    rw [pending_hear]
    exact nextLine_length hn

lemma turn_ended (h : s.ended = true) : s.turn lib env drops broken = s := if_pos h

/-- **A session ends**: there are no more turns than bytes, and one. -/
theorem turns_ended (n : ℕ) (h : s.pending.length < n) :
    (Session.turns lib env drops broken n s).ended = true := by
  have key : ∀ k, (Session.turns lib env drops broken k s).ended = true ∨
      (Session.turns lib env drops broken k s).pending.length + k ≤ s.pending.length := by
    intro k
    induction k with
    | zero => exact Or.inr le_rfl
    | succ k ih =>
      rcases ih with ih | ih
      · left
        rw [Session.turns, turn_ended ih]
        exact ih
      · cases he : (Session.turns lib env drops broken k s).ended with
        | true =>
          left
          rw [Session.turns, turn_ended he]
          exact he
        | false =>
          rcases turn_progress lib env drops broken he with h' | h'
          · exact Or.inl h'
          · right
            rw [Session.turns]
            omega
  rcases key n with hk | hk
  · exact hk
  · omega

lemma run_ended {lib : LibC} {env : Env} {stdin : Stdin} {k n : ℕ} (hkn : k ≤ n)
    (h : (Session.run lib env stdin k).ended = true) :
    Session.run lib env stdin n = Session.run lib env stdin k := by
  induction n, hkn using Nat.le_induction with
  | base => rfl
  | succ n hkn ih =>
    rw [← ih] at h
    show (Session.run lib env stdin n).turn lib env _ _ = _
    rw [turn_ended h, ih]

end CSecureBuild.Shell.Reference
