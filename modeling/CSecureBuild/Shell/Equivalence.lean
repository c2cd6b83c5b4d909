import CSecureBuild.Shell.Correctness
import CSecureBuild.Shell.Garbage

/-!
Where the vulnerable shell and the hardened one agree. Both are compared with the reference session:
the hardened shell follows it always, the vulnerable one on sessions whose lines are `Tame`, as long
as no child sends the shared offset of a seekable standard input back (`Stdin.childExit`).

The ring of the vulnerable shell is indexed by a count that only grows, so `Tracks` holds of the count
modulo the number of slots. Its copies are never released, so every one it points to stays live.
-/

namespace CSecureBuild.Shell.Equivalence

open CSecureBuild.CLib.Memory CSecureBuild.CLib.Tokens CSecureBuild.CLib.Stdio
open CSecureBuild.CLib.Numbers CSecureBuild.CLib.Printf CSecureBuild.Lib.Ring CSecureBuild.Shell.Process
open CSecureBuild.Shell.Reference

/-! ### The globals of the vulnerable shell -/

/-- The invariant of the globals of the vulnerable shell. -/
structure Window (s : Vuln.State) (log : List (List UInt8)) : Prop where
  count : s.historyCount = log.length
  ring : Tracks (s.historyCount % historySlots) (fun i => (s.history i).map s.heap.text) log
  copies : ∀ i p, s.history i = some p → s.heap.Live p ∧ ∃ text, Globals.CopyOf s.heap p text
  /-- A flag is set wherever a copy is; elsewhere it is garbage. -/
  used : ∀ i, s.history i ≠ none → s.slotUsed i ≠ 0
  /-- The last line, whole. -/
  last : ∃ text rest, s.lastCommand.bytes = text ++ 0 :: rest ∧ (0 : UInt8) ∉ text

lemma window_start (garbage : Fin historySlots → ℤ) : Window (Vuln.historyInit garbage) [] where
  count := rfl
  ring := Tracks.nil historySlots
  copies := fun i p h => by cases h
  used := fun i h => absurd rfl h
  last := ⟨[], List.replicate 31 0, rfl, by simp⟩

variable {s : Vuln.State} {log : List (List UInt8)} {line : List UInt8}

lemma Window.out (hw : Window s log) (out : List Event) (forks : ℕ) :
    Window { s with out, forks } log := ⟨hw.count, hw.ring, hw.copies, hw.used, hw.last⟩

/-- A block handed out leaves the others alone. -/
lemma alloc_frame {heap : Heap} {p : ℕ} (hp : heap.Live p) (bytes : List UInt8) :
    (heap.alloc bytes).2.Live p ∧ (heap.alloc bytes).2.blocks.getD p [] = heap.blocks.getD p [] := by
  have hblocks : (heap.alloc bytes).2.blocks = heap.blocks ++ [bytes] := rfl
  refine ⟨⟨by rw [hblocks, List.length_append]; have := hp.1; omega, hp.2⟩, ?_⟩
  rw [hblocks]
  simp [List.getD_eq_getElem?_getD, List.getElem?_append_left hp.1]

lemma alloc_new (heap : Heap) (bytes : List UInt8) :
    (heap.alloc bytes).2.Live heap.blocks.length ∧
      (heap.alloc bytes).2.blocks.getD heap.blocks.length [] = bytes := by
  have hblocks : (heap.alloc bytes).2.blocks = heap.blocks ++ [bytes] := rfl
  refine ⟨⟨by rw [hblocks]; simp, fun h => ?_⟩, ?_⟩
  · have := heap.made _ h
    omega
  · rw [hblocks]
    simp [List.getD_eq_getElem?_getD]

/-- **`record_history` of the vulnerable shell** on a line that fits into `last_command`. -/
theorem recordHistory_spec (hw : Window s log) (h0 : (0 : UInt8) ∉ line) (hshort : line.length ≤ 31)
    (hfew : log.length + 1 < 2 ^ 31) (rest : List UInt8) :
    ∃ s', Vuln.recordHistory s (line ++ 0 :: rest) = .ok s' ∧ Window s' (log ++ [line]) ∧
      s'.out = s.out ∧ s'.forks = s.forks := by
  have hmod : s.historyCount % historySlots < historySlots := Nat.mod_lt _ (by decide)
  have hfits : (line ++ [0]).length ≤ historySize := by
    rw [List.length_append, List.length_singleton]
    simp only [historySize]
    omega
  obtain ⟨a, ha, hbytes⟩ := s.lastCommand.overwrite_eq hfits
  have hmax : ¬ (s.historyCount : ℤ) = intMax := by
    have := hw.count
    simp only [intMax]
    omega
  -- the copy is a new block
  obtain ⟨hlive, hnew⟩ := alloc_new s.heap (line ++ [0])
  have hcopy : Globals.CopyOf (s.heap.alloc (line ++ [0])).2 s.heap.blocks.length line := ⟨hnew, h0⟩
  refine ⟨{ s with
      lastCommand := a
      heap := (s.heap.alloc (line ++ [0])).2
      history := Function.update s.history ⟨s.historyCount % historySlots, hmod⟩
        (some s.heap.blocks.length)
      slotUsed := Function.update s.slotUsed ⟨s.historyCount % historySlots, hmod⟩ 1
      historyCount := s.historyCount + 1 }, ?_, ?_, rfl, rfl⟩
  · unfold Vuln.recordHistory CharArray.strcpy
    rw [stringOf_append_nul h0, ok_bind, ha, ok_bind, index_eq hmod, ok_bind]
    unfold Heap.strdup
    rw [stringOf_append_nul h0]
    simp only [ok_bind, pure_eq_ok, if_neg hmax]
    rfl
  constructor
  · simp only [hw.count, List.length_append, List.length_singleton]
  · -- the slot of the count has the new copy, the others keep theirs
    have hslots : ∀ i, (Function.update s.history ⟨s.historyCount % historySlots, hmod⟩
        (some s.heap.blocks.length) i).map (s.heap.alloc (line ++ [0])).2.text =
        if i = ⟨s.historyCount % historySlots, hmod⟩ then some line
        else (s.history i).map s.heap.text := by
      intro i
      by_cases hi : i = ⟨s.historyCount % historySlots, hmod⟩
      · rw [if_pos hi]
        simp only [hi, Function.update_self, Option.map_some, hcopy.text]
      · rw [if_neg hi]
        simp only [Function.update_of_ne hi]
        cases hp : s.history i with
        | none => rfl
        | some p =>
          simp only [Option.map_some, Heap.text, (alloc_frame (hw.copies i p hp).1 _).2]
    have hpush := hw.ring.push hmod line hslots
    rwa [Nat.mod_add_mod] at hpush
  · intro i p hip
    by_cases hi : i = ⟨s.historyCount % historySlots, hmod⟩
    · simp only [hi, Function.update_self] at hip
      cases hip
      exact ⟨hlive, line, hcopy⟩
    · simp only [Function.update_of_ne hi] at hip
      obtain ⟨hp, text, hc⟩ := hw.copies i p hip
      obtain ⟨hp', hsame⟩ := alloc_frame hp (line ++ [0])
      exact ⟨hp', text, hsame.trans hc.1, hc.2⟩
  · intro i hi
    by_cases his : i = ⟨s.historyCount % historySlots, hmod⟩
    · simp [his]
    · simp only [Function.update_of_ne his] at hi ⊢
      exact hw.used i hi
  · exact ⟨line, _, by rw [hbytes, List.append_assoc]; rfl, h0⟩

lemma recallSlot_spec (hw : Window s log) (slot : ℤ) :
    Vuln.recallSlot s slot = .ok (s.printed .recall (recallText log slot)) := by
  unfold Vuln.recallSlot recallText
  by_cases hr : slot < 0 ∨ slot ≥ historySlots
  · rw [if_pos hr, if_pos hr]
    rfl
  rw [if_neg hr, if_neg hr]
  have hlt : slot.toNat < historySlots := by omega
  have hring := hw.ring.slots_eq ⟨slot.toNat, hlt⟩
  simp only at hring
  rw [← hring, index_eq hlt, ok_bind]
  cases hh : s.history ⟨slot.toNat, hlt⟩ with
  | none =>
    split_ifs <;> rfl
  | some p =>
    obtain ⟨hp, text, hc⟩ := hw.copies _ p hh
    have hused : s.slotUsed ⟨slot.toNat, hlt⟩ ≠ 0 := hw.used _ (by rw [hh]; simp)
    simp only [if_neg hused, Heap.load_eq hp, ok_bind, hc.1, stringOf_append_nul hc.2 [],
      Option.map_some, hc.text, Option.getD_some, pure_eq_ok]

/-! ### Parsing -/

/-- On a line that fits, both shells leave the same array. -/
lemma parseLoop_of_fits {buffer buffer' : List UInt8} {args args' : Args} {argCount pos : ℕ}
    (h : Hardened.parseLoop buffer args argCount pos = .ok (true, buffer', args')) :
    Vuln.parseLoop buffer args argCount pos = .ok (buffer', args') := by
  fun_induction Hardened.parseLoop buffer args argCount pos with
  | case1 => cases h
  | case2 buffer args argCount pos b q hs =>
    obtain ⟨i, hi, hok⟩ := bind_eq_ok h
    unfold Vuln.parseLoop
    rw [hs]
    simp only [hi, ok_bind]
    cases hok
    rfl
  | case3 => cases h
  | case4 buffer args argCount pos token b q hs hroom hlt ih =>
    have hlt' : argCount < maxArgs - 1 := by omega
    unfold Vuln.parseLoop
    rw [hs]
    simp only [dif_pos hlt']
    exact ih h
  | case5 => cases h

/-! ### A line -/

/-- A line that triggers none of the planted defects: it fits into `last_command`, `history` has no
argument, and that of `recall` is a number. -/
def Tame (lib : LibC) (line : List UInt8) : Prop :=
  line.length ≤ 31 ∧
    match tokens blank line with
    | [] => True
    | name :: args => (name = ascii "history" → args = []) ∧
        (name = ascii "recall" → recallNumber lib args ≠ none)

/-- A state of the vulnerable `main` and a session that agree on what they recalled and executed. -/
structure Agrees (v : Vuln.Main) (S : Session) : Prop where
  window : Window v.shell S.log
  recalls : recalls v.shell.out = recalls S.out
  execs : execs v.shell.out = execs S.out
  forks : v.shell.forks = S.forks
  left : v.left = S.ended

lemma recalls_append (out events : List Event) :
    recalls (out ++ events) = recalls out ++ recalls events := List.filterMap_append

lemma recalls_commandEvents (argv : List (List UInt8)) (fork : Fork) :
    recalls (commandEvents argv fork) = [] := by
  have hwait : ∀ waitpid, recalls (Hardened.awaitChild waitpid) = [] := by
    intro waitpid
    induction waitpid with
    | interrupted next ih => exact ih
    | reaped => rfl
    | failed => rfl
  cases fork with
  | failed => rfl
  | child execvp waitpid =>
    unfold commandEvents
    rw [recalls_append, hwait, List.append_nil]
    cases execvp <;> rfl

lemma atoi_of_recallNumber {lib : LibC} {args : List (List UInt8)} {slot : ℤ}
    (h : recallNumber lib args = some slot) : (args.head?.map atoi).getD (.ok 0) = .ok slot := by
  cases args with
  | nil => exact congrArg Except.ok (Option.some.inj h)
  | cons arg args =>
    unfold recallNumber Hardened.parseInt at h
    simp only at h
    split_ifs at h with hbad
    cases h
    simp only [not_or, Bool.not_eq_true] at hbad
    have hvalue := strtol_leading hbad.2.2.1
    simp only [List.head?_cons, Option.map_some, Option.getD_some]
    unfold atoi
    rw [← hvalue, if_pos (by omega)]
    rfl

variable {lib : LibC} {env : Env} {v : Vuln.Main} {S : Session}

/-- **One tame line.** -/
theorem runLine_agrees (ha : Agrees v S) (h0 : (0 : UInt8) ∉ line) (htame : Tame lib line)
    (hfew : (S.hear lib env line).log.length < 2 ^ 31) (hfork : env v.shell.forks ≠ .failed)
    (hstay : ∀ w, env v.shell.forks = .child .failed w → v.stdin.childExit = v.stdin)
    (tail : List UInt8) :
    ∃ v', Vuln.runLine lib env v (line ++ 0 :: tail) = .ok v' ∧ Agrees v' (S.hear lib env line) ∧
      v'.stdin = v.stdin := by
  rw [log_hear] at hfew
  unfold Vuln.runLine Session.hear
  rw [strlen_append_nul h0, ok_bind]
  -- an empty line is not recorded
  by_cases hempty : line = []
  · rw [if_pos hempty, if_pos (by rw [hempty]; rfl)]
    exact ⟨_, rfl, ⟨ha.window, ha.recalls, ha.execs, ha.forks, ha.left⟩, rfl⟩
  rw [if_neg hempty, if_neg (by rwa [List.length_eq_zero_iff])]
  rw [if_neg hempty, List.length_append, List.length_singleton] at hfew
  obtain ⟨hshort, hbuiltin⟩ := htame
  obtain ⟨s, hs, hw, hout, hforks⟩ := recordHistory_spec ha.window h0 hshort hfew tail
  rw [hs, ok_bind]
  have hfit : (tokens blank line).length ≤ maxArgs - 1 := by
    have : (tokens blank line).length ≤ line.length := length_tokens_le line
    simp only [maxArgs]
    omega
  obtain ⟨⟨fits, buffer, args⟩, hp, hfits, -, hholds, -⟩ :=
    Parsing.parseLoop_fits [] tail (fun _ => .indeterminate) 0 h0 (by omega)
  simp only at hfits hholds
  rw [hfits] at hp
  have hparse : Vuln.parseInput (line ++ 0 :: tail) (fun _ => .indeterminate) = .ok (buffer, args) :=
    parseLoop_of_fits hp
  rw [hparse, ok_bind]
  unfold Session.obey
  rw [if_neg (by omega)]
  cases htoks : tokens blank line with
  | nil =>
    rw [htoks] at hholds
    have hread : readEntry buffer args 0 = .ok none := hholds
    simp only [hread, ok_bind, Vuln.executeCommand, reduceCtorEq, if_false, pure_eq_ok]
    exact ⟨_, rfl, ⟨hw, by rw [hout]; exact ha.recalls, by rw [hout]; exact ha.execs,
      hforks.trans ha.forks, ha.left⟩, rfl⟩
  | cons name argv =>
    rw [htoks] at hholds hbuiltin
    obtain ⟨hhist, hrec⟩ := hbuiltin
    simp only [hholds.1, ok_bind, Option.some.injEq]
    -- `exit`
    by_cases hexit : name = ascii "exit"
    · rw [if_pos hexit, if_pos hexit]
      exact ⟨_, rfl, ⟨hw, by rw [hout]; exact ha.recalls, by rw [hout]; exact ha.execs,
        hforks.trans ha.forks, rfl⟩, rfl⟩
    rw [if_neg hexit, if_neg hexit]
    -- `history`, without an argument
    by_cases hname : name = ascii "history"
    · rw [if_pos hname, if_pos hname]
      have hargv := hhist hname
      subst hargv
      have hread : readEntry buffer args 1 = .ok none := hholds.2
      obtain ⟨text, rest, hlast, htext0⟩ := hw.last
      have hshort : (text.length : ℤ) ≤ intMax := by
        have hlen := congrArg List.length hlast
        rw [s.lastCommand.size, List.length_append] at hlen
        simp only [historySize, intMax] at hlen ⊢
        omega
      simp only [hread, ok_bind, Option.getD_none, Vuln.showHistory, hlast,
        stringOf_append_nul htext0, printf_string hshort, pure_eq_ok]
      refine ⟨_, rfl, ⟨hw.out _ _, ?_, ?_, hforks.trans ha.forks, ha.left⟩, rfl⟩
      · simp only [Vuln.State.printed, Session.print, recalls_append, hout, ha.recalls]
        rfl
      · simp only [Vuln.State.printed, Session.print, execs_append, hout, ha.execs]
        rfl
    rw [if_neg hname, if_neg hname]
    -- `recall`, with an accepted number
    by_cases hname' : name = ascii "recall"
    · rw [if_pos hname', if_pos hname']
      obtain ⟨slot, hslot⟩ := Option.ne_none_iff_exists'.mp (hrec hname')
      have hread : readEntry buffer args 1 = .ok argv.head? := by
        cases argv with
        | nil => exact hholds.2
        | cons arg argv => exact hholds.2.1
      simp only [hread, ok_bind, atoi_of_recallNumber hslot, recallSlot_spec hw, pure_eq_ok,
        recallArgs, hslot]
      refine ⟨_, rfl, ⟨hw.out _ _, ?_, ?_, hforks.trans ha.forks, ha.left⟩, rfl⟩
      · simp only [Vuln.State.printed, Session.print, recalls_append, hout, ha.recalls]
      · simp only [Vuln.State.printed, Session.print, execs_append, hout, ha.execs]
    rw [if_neg hname', if_neg hname']
    -- a command, whose child leaves the input alone
    have hargv : readArgv buffer args 0 = .ok (name :: argv) := readArgv_eq hholds
    unfold Vuln.executeCommand
    simp only [hholds.1, ok_bind, hforks, ← ha.forks, pure_eq_ok]
    cases hf : env v.shell.forks with
    | failed => exact absurd hf hfork
    | child execvp waitpid =>
      simp only [hargv, ok_bind]
      refine ⟨_, rfl, ⟨hw.out _ _, ?_, ?_, rfl, ha.left⟩, ?_⟩
      · simp only [Session.print, recalls_append, recalls_commandEvents, hout, ha.recalls]
        cases execvp <;> rfl
      · simp only [Session.print, execs_append, execs_commandEvents, hout, ha.execs]
        cases execvp <;> rfl
      · cases execvp with
        | replaced => rfl
        | failed => exact hstay waitpid hf

/-! ### Turns and runs -/

/-- The vulnerable `main` and a session that agree so far and have the same input before them. -/
structure Follows (lib : LibC) (stdin : Stdin) (v : Vuln.Main) (S : Session) : Prop where
  agrees : Agrees v S
  pending : S.ended = false → v.stdin.pending = S.pending
  drops : v.stdin.drops lib = stdin.drops lib
  seekable : v.stdin.seekable = stdin.seekable

/-- Sessions as they are compared: `fork` works, there are fewer lines than an `int` can count, and
every line the session hears is tame. -/
structure InDomain (lib : LibC) (env : Env) (stdin : Stdin) : Prop where
  forks : ∀ i, env i ≠ .failed
  few : ∀ n, (Session.run lib env stdin n).log.length < 2 ^ 31
  tame : ∀ n raw rest, (Session.run lib env stdin n).ended = false →
    nextLine (stdin.drops lib) (Session.run lib env stdin n).pending = some (raw, rest) →
    Tame lib (lineText raw)

lemma childExit_eq {st : Stdin} (h : st.seekable = false) : st.childExit = st := by
  unfold Stdin.childExit
  rw [if_neg (by simp [h])]

/-- **One turn** of the vulnerable shell, as long as no child sends the input back. -/
theorem turn_agrees {stdin : Stdin} (hd : InDomain lib env stdin)
    (hback : stdin.seekable = false ∨ ∀ i w, env i ≠ .child .failed w) (n : ℕ)
    (hf : Follows lib stdin v (Session.run lib env stdin n)) :
    ∃ v', Vuln.turn lib env v = .ok v' ∧
      Follows lib stdin v' (Session.run lib env stdin (n + 1)) := by
  obtain ⟨ha, hpend, hdrops, hseek⟩ := hf
  have hrun : Session.run lib env stdin (n + 1) =
      (Session.run lib env stdin n).turn lib env (stdin.drops lib) stdin.broken := rfl
  unfold Vuln.turn
  rw [ha.left]
  cases he : (Session.run lib env stdin n).ended with
  | true =>
    rw [hrun, turn_ended he]
    exact ⟨v, rfl, ha, hpend, hdrops, hseek⟩
  | false =>
  simp only [Bool.false_eq_true, if_false]
  obtain ⟨st, ⟨hfile, hst, hbr⟩, hline⟩ := getdelim_spec lib v.stdin
  rw [hpend he, hdrops] at hline
  have hsame : st.drops lib = stdin.drops lib ∧ st.seekable = stdin.seekable := by
    refine ⟨?_, hst.trans hseek⟩
    rw [← hdrops]
    unfold Stdin.drops
    rw [hbr]
  unfold Vuln.loopBody getline
  cases hn : nextLine (stdin.drops lib) (Session.run lib env stdin n).pending with
  -- the end of the input, or an error
  | none =>
    rw [hn] at hline
    rw [hrun]
    unfold Session.turn
    rw [if_neg (by simp [he]), hn]
    simp only [hline.1, pure_eq_ok]
    refine ⟨_, rfl, ⟨ha.window.out _ _, ?_, ?_, ha.forks, rfl⟩, fun h => by simp [Session.stop] at h,
      hsame.1, hsame.2⟩
    · simp only [Vuln.State.printed, Session.stop, Session.print, recalls_append, ha.recalls]
      cases stdin.broken <;> simp [recalls]
    · simp only [Vuln.State.printed, Session.stop, Session.print, execs_append, ha.execs]
      cases stdin.broken <;> simp [execs]
  | some p =>
    obtain ⟨raw, rest⟩ := p
    rw [hn] at hline
    obtain ⟨hget, hrest⟩ := hline
    rw [hrun, turn_line he hn]
    simp only [hget]
    obtain ⟨tail, htail⟩ := Refinement.chomp_spec (nextLine_ne_nil hn).1 (nextLine_newline hn)
      (lib.spare v.inputBuffer raw)
    rw [htail]
    -- a line was read, behind the prompt
    have hread : Agrees { v with
        shell := { v.shell with out := v.shell.out ++ [prompt] }
        stdin := st
        inputBuffer := some (raw ++ 0 :: lib.spare v.inputBuffer raw) }
        { (Session.run lib env stdin n).print [prompt] with pending := rest } := by
      refine ⟨ha.window.out _ _, ?_, ?_, ha.forks, ha.left⟩
      · simp only [Session.print, recalls_append, ha.recalls]
      · simp only [Session.print, execs_append, ha.execs]
    have hfew := hd.few (n + 1)
    rw [hrun, turn_line he hn] at hfew
    have hstay : ∀ w, env v.shell.forks = .child .failed w → st.childExit = st := by
      intro w hw
      rcases hback with hback | hback
      · exact childExit_eq (hsame.2.trans hback)
      · exact absurd hw (hback _ w)
    obtain ⟨v', hv', ha', hst'⟩ := runLine_agrees hread (zero_notMem_lineText raw)
      (hd.tame n raw rest he hn) hfew (hd.forks _) hstay tail
    refine ⟨v', hv', ha', fun _ => ?_, ?_, ?_⟩
    · rw [hst', pending_hear, ← hrest]
    · rw [hst']
      exact hsame.1
    · rw [hst']
      exact hsame.2

theorem turns_agree {stdin : Stdin} (hd : InDomain lib env stdin)
    (hback : stdin.seekable = false ∨ ∀ i w, env i ≠ .child .failed w)
    (garbage : Fin historySlots → ℤ) (n : ℕ) :
    ∃ v, Vuln.turns lib env n (Vuln.start garbage stdin) = .ok v ∧
      Follows lib stdin v (Session.run lib env stdin n) := by
  induction n with
  | zero =>
    exact ⟨Vuln.start garbage stdin, rfl, ⟨window_start garbage, rfl, rfl, rfl, rfl⟩, fun _ => rfl, rfl,
      rfl⟩
  | succ n ih =>
    obtain ⟨v, hv, hf⟩ := ih
    obtain ⟨v', hv', hf'⟩ := turn_agrees hd hback n hf
    refine ⟨v', ?_, hf'⟩
    unfold Vuln.turns
    rw [hv, ok_bind, hv']

/-! ### The two shells -/

/-- After any number of turns the two shells have recalled and executed the same, have both ended or
both go on, and have the same input before them if they go on. -/
def SameSession (lib : LibC) (env : Env) (garbage : Fin historySlots → ℤ) (stdin : Stdin) : Prop :=
  ∀ n, ∃ v m, Vuln.turns lib env n (Vuln.start garbage stdin) = .ok v ∧
    Hardened.turns lib env n (Hardened.start stdin) = .ok m ∧
    recalls v.shell.out = recalls m.shell.out ∧ execs v.shell.out = execs m.shell.out ∧
    v.left = m.done ∧ (m.done = false → v.stdin.pending = m.stdin.pending)

/-- **The vulnerable shell does what the hardened one does** on tame sessions, whatever its flags
held, unless a child that could not replace its program sends a seekable standard input back; and what
the flags held changes nothing that it does, in any session. -/
theorem vuln_same_session (lib : LibC) (env : Env) (garbage : Fin historySlots → ℤ) (stdin : Stdin) :
    (InDomain lib env stdin → (stdin.seekable = false ∨ ∀ i w, env i ≠ .child .failed w) →
      SameSession lib env garbage stdin) ∧
      ∀ n garbage', (Vuln.turns lib env n (Vuln.start garbage stdin)).map (fun v => v.shell.out) =
        (Vuln.turns lib env n (Vuln.start garbage' stdin)).map fun v => v.shell.out := by
  constructor
  · intro hd hback n
    obtain ⟨v, hv, hf⟩ := turns_agree hd hback garbage n
    obtain ⟨m, hm, hf'⟩ := Refinement.turns_follows lib env stdin n
    refine ⟨v, m, hv, hm, ?_, ?_, ?_, fun hrun => ?_⟩
    · rw [hf.agrees.recalls, hf'.agrees.out]
    · rw [hf.agrees.execs, hf'.agrees.out]
    · rw [hf.agrees.left, hf'.agrees.done]
    · have hleft : m.left = false := (Bool.or_eq_false_iff.mp hrun).1
      rw [hf'.agrees.done] at hrun
      rw [hf.pending hrun, hf'.pending hleft]
  · intro n garbage'
    refine (Garbage.turns_unseen lib env garbage garbage' stdin n).map_eq fun v k h => ?_
    obtain ⟨t, ⟨flags, rfl, -⟩, rfl⟩ := h
    rfl

/-! ### A session that fails to run a command and looks back -/

/-- A C library that reads ahead as far as it can. -/
def eager : LibC where
  portion := fun _ => 4095
  keepsPartial := true
  spare := fun _ _ => []
  leftover := fun buffer => buffer
  long64 := true
  address := fun _ => ascii "0x0"
  overlong := fun _ _ => []

/-- Every command is unknown. -/
def unknown : Env := fun _ => .child .failed .reaped

/-- The input of the replay test, from a file or from a pipe. -/
def replayInput (seekable : Bool) : Stdin := Stdin.start (ascii "x\nrecall 0\n") seekable false

lemma replayInput_run (seekable : Bool) (n : ℕ) :
    (Session.run eager unknown (replayInput seekable) n).ended = false → n < 3 := by
  intro h
  by_contra hn
  have h3 : (Session.run eager unknown (replayInput seekable) 3).ended = true := by
    cases seekable <;> decide +kernel
  rw [run_ended (by omega) h3, h3] at h
  cases h

lemma replayInput_inDomain (seekable : Bool) : InDomain eager unknown (replayInput seekable) where
  forks := fun i h => by cases h
  few := by
    intro n
    have hlog : ∀ k ≤ 3, (Session.run eager unknown (replayInput seekable) k).log.length ≤ 2 := by
      cases seekable <;> decide +kernel
    by_cases hn : n ≤ 3
    · have := hlog n hn
      omega
    · have h3 : (Session.run eager unknown (replayInput seekable) 3).ended = true := by
        cases seekable <;> decide +kernel
      rw [run_ended (by omega) h3]
      have := hlog 3 le_rfl
      omega
  tame := by
    intro n raw rest hended hline
    have hraw : ∀ k < 3, (nextLine ((replayInput seekable).drops eager)
        (Session.run eager unknown (replayInput seekable) k).pending).all fun p =>
          decide (lineText p.1 = ascii "x" ∨ lineText p.1 = ascii "recall 0") := by
      cases seekable <;> decide +kernel
    have h := hraw n (replayInput_run seekable n hended)
    rw [hline] at h
    have h : lineText raw = ascii "x" ∨ lineText raw = ascii "recall 0" := by simpa using h
    rcases h with h | h <;> rw [h]
    · have ht : tokens blank (ascii "x") = [ascii "x"] := by decide +kernel
      exact ⟨by decide, by rw [ht]; decide⟩
    · have ht : tokens blank (ascii "recall 0") = [ascii "recall", ascii "0"] := by decide +kernel
      exact ⟨by decide, by rw [ht]; decide +kernel⟩

theorem vuln_same_session_pipe : SameSession eager unknown (fun _ => 7) (replayInput false) :=
  (vuln_same_session eager unknown (fun _ => 7) (replayInput false)).1 (replayInput_inDomain false)
    (Or.inl rfl)

/-- From a file, the vulnerable shell hears `recall 0` twice: the child that could not run `x` sends
the offset back when it leaves. -/
theorem replayed_session :
    InDomain eager unknown (replayInput true) ∧
      ¬ SameSession eager unknown (fun _ => 0) (replayInput true) := by
  refine ⟨replayInput_inDomain true, fun h => ?_⟩
  obtain ⟨v, m, hv, hm, hrecalls, -⟩ := h 3
  have hv' : (Vuln.turns eager unknown 3 (Vuln.start (fun _ => 0) (replayInput true))).map
      (fun v => recalls v.shell.out) = .ok [ascii "x", ascii "x"] := by decide +kernel
  have hm' : (Hardened.turns eager unknown 3 (Hardened.start (replayInput true))).map
      (fun m => recalls m.shell.out) = .ok [ascii "x"] := by decide +kernel
  rw [hv] at hv'
  rw [hm] at hm'
  have hv' : recalls v.shell.out = [ascii "x", ascii "x"] := Except.ok.inj hv'
  have hm' : recalls m.shell.out = [ascii "x"] := Except.ok.inj hm'
  rw [hv', hm'] at hrecalls
  simp at hrecalls

end CSecureBuild.Shell.Equivalence
