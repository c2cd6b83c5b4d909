import CSecureBuild.Shell.Equivalence

/-!
All that the vulnerable shell does, on any input. A session with it (`Rough`) keeps the lines and the stream,
and no ring, flag, buffer or pointer. A line has no defined behaviour if it does not fit into
`last_command`, if the lines recorded so far are as many as an `int` can count, if it is a `history` with a
format that asks for more than the one string it is given, or a `recall` with a number that is no `int`
(`trigger`). These are the faults of `Fault`; that the flags of `slot_used` are read before anything was
written there is none, since an `int` has no value that is no number.

`turns_rough` says that the program follows the session, up to and with the turn that faults, whatever the
flags held, whatever the kernel answers, and if a child sends the input back too. `Keeps` is what its memory
comes to: every copy that was ever made, of which the ring knows the last four.
-/

namespace CSecureBuild.Shell.Planted

open CSecureBuild.CLib.Memory CSecureBuild.CLib.Tokens CSecureBuild.CLib.Stdio
open CSecureBuild.CLib.Numbers CSecureBuild.CLib.Printf CSecureBuild.Shell.Process
open CSecureBuild.Shell.Reference

/-! ### Sessions -/

/-- A session with the vulnerable shell: the stream, the lines recorded so far, the number of `fork` calls,
what was done, whether it is over, and its status. -/
structure Rough where
  stdin : Stdin
  log : List (List UInt8)
  forks : ℕ
  out : List Event
  left : Bool
  status : ℕ

/-- A session that has not begun. -/
def Rough.start (stdin : Stdin) : Rough := ⟨stdin, [], 0, [], false, 0⟩

/-- Events at the end of a session. -/
def Rough.print (s : Rough) (events : List Event) : Rough := { s with out := s.out ++ events }

/-- Running a command. A child that cannot replace its program sends the stream back, and so the shell may
read again what it has read. -/
def Rough.command (env : Env) (s : Rough) (argv : List (List UInt8)) : Rough :=
  match env s.forks with
  | .failed =>
    { s.print [.reported (ascii "fork failed")] with forks := s.forks + 1, left := true, status := 1 }
  | .child execvp _ =>
    { s.print (Vuln.runChild argv execvp) with
      forks := s.forks + 1
      stdin := match execvp with
        | .replaced => s.stdin
        | .failed => s.stdin.childExit }

/-- Obeying the tokens of a line that was recorded: `history` prints the line itself, through its argument
as a format. -/
def Rough.obey (lib : LibC) (env : Env) (s : Rough) : List (List UInt8) → Except Fault Rough
  | [] => pure s
  | name :: args =>
    if name = ascii "exit" then pure { s with left := true }
    else if name = ascii "history" then do
      let text ← printf lib (args.head?.getD (ascii "%s")) (s.log.getLast?.getD [])
      pure (s.print [.printed .history text])
    else if name = ascii "recall" then do
      let slot ← (args.head?.map atoi).getD (pure 0)
      pure (s.print [.printed .recall (recallText s.log slot)])
    else pure (s.command env (name :: args))

/-- A line of the input: an empty one is skipped, any other is recorded and obeyed, as far as its first 63
tokens go. -/
def Rough.hear (lib : LibC) (env : Env) (s : Rough) (line : List UInt8) : Except Fault Rough :=
  if line = [] then pure s
  else if historySize ≤ line.length then .error .outOfBounds
  else if (s.log.length : ℤ) = intMax then .error .signedOverflow
  else { s with log := s.log ++ [line] }.obey lib env ((tokens blank line).take (maxArgs - 1))

/-- One turn of a session: a prompt, and what comes next. -/
def Rough.turn (lib : LibC) (env : Env) (s : Rough) : Except Fault Rough :=
  if s.left then pure s
  else
    match s.stdin.getdelim lib with
    | (none, stdin) =>
      pure { s.print [prompt, .printed .main (ascii "\nExiting...")] with stdin, left := true }
    | (some raw, stdin) => { s.print [prompt] with stdin }.hear lib env (lineText raw)

/-- `n` turns of a session, or fewer if it ends before. -/
def Rough.turns (lib : LibC) (env : Env) : ℕ → Rough → Except Fault Rough
  | 0, s => pure s
  | n + 1, s => do
    let s ← Rough.turns lib env n s
    s.turn lib env

/-! ### Parsing -/

section Parse

variable {done text tail : List UInt8} {args : Args} {argCount : ℕ}

/-- What the loop of `parse_input` leaves: `text` is overwritten, and the entries hold its tokens, as many
as there is room for. -/
structure Cut (done text tail : List UInt8) (args : Args) (argCount : ℕ) (r : List UInt8 × Args) : Prop where
  buffer : ∃ text', text'.length = text.length ∧ r.1 = done ++ text' ++ 0 :: tail
  holds : Holds r.1 r.2 argCount ((tokens blank text).take (maxArgs - 1 - argCount))
  frame : ∀ j : Fin maxArgs, (j : ℕ) < argCount → r.2 j = args j

lemma holds_null (buffer : List UInt8) (hc : argCount < maxArgs) :
    Holds buffer (Function.update args ⟨argCount, hc⟩ .null) argCount [] := by
  show readEntry _ _ _ = _
  unfold readEntry
  rw [index_eq hc, ok_bind]
  simp only [Function.update_self, pure_eq_ok]

lemma update_frame (hc : argCount < maxArgs) (e : Entry) (j : Fin maxArgs) (hj : (j : ℕ) < argCount) :
    Function.update args ⟨argCount, hc⟩ e j = args j :=
  Function.update_of_ne (fun h => by rw [h] at hj; simp at hj) _ _

/-- **`parse_input` hands on the tokens that fit.** -/
theorem parseLoop_cut (done tail : List UInt8) (args : Args) (argCount : ℕ) (h0 : (0 : UInt8) ∉ text)
    (hc : argCount ≤ maxArgs - 1) :
    ∃ r, Vuln.parseLoop (done ++ text ++ 0 :: tail) args argCount done.length = .ok r ∧
      Cut done text tail args argCount r := by
  have hc' : argCount < maxArgs := Nat.lt_of_le_of_lt hc (by decide)
  -- by induction on the tokens that are left, the border behind the last one moving with them
  induction htoks : tokens blank text generalizing done text args argCount with
  | nil =>
    refine ⟨(done ++ text ++ 0 :: tail, Function.update args ⟨argCount, hc'⟩ .null), ?_,
      ⟨text, rfl, rfl⟩, ?_, update_frame hc' _⟩
    · unfold Vuln.parseLoop
      rw [strtokR_none blank_zero done tail htoks]
      simp only [index_eq hc', ok_bind, pure_eq_ok]
    · rw [htoks, List.take_nil]
      exact holds_null _ hc'
  | cons tok toks ih =>
    obtain ⟨blanks, sep, rest, htext, -, hsep, hrest, hcall⟩ := strtokR_some blank_zero h0 done tail htoks
    by_cases hroom : argCount < maxArgs - 1
    · have htok0 : (0 : UInt8) ∉ tok := fun h => h0 (mem_of_mem_tokens (by rw [htoks]; simp) h)
      have hrest0 : (0 : UInt8) ∉ rest := fun h => h0 (by rw [htext]; simp [h])
      set done' := done ++ blanks ++ tok ++ sep.map fun _ => 0 with hdone'
      have hborder : (done ++ blanks ++ tok ++ sep).length = done'.length := by
        simp only [hdone', List.length_append, List.length_map]
      obtain ⟨r, hr, ⟨rest', hlen, hbuf⟩, hholds, hframe⟩ :=
        ih done' (Function.update args ⟨argCount, hc'⟩ (.pointer (done ++ blanks).length))
          (argCount + 1) hrest0 (by omega) (by omega) hrest
      refine ⟨r, ?_, ⟨blanks ++ tok ++ sep.map (fun _ => 0) ++ rest', ?_, ?_⟩, ?_, fun j hj => ?_⟩
      · unfold Vuln.parseLoop
        rw [hcall]
        simp only [dif_pos hroom]
        rw [hborder]
        exact hr
      · rw [htext]
        simp only [List.length_append, List.length_map, hlen]
      · rw [hbuf]
        simp only [hdone', List.append_assoc]
      · obtain ⟨k, hk⟩ : ∃ k, maxArgs - 1 - argCount = k + 1 := ⟨maxArgs - 1 - argCount - 1, by omega⟩
        rw [htoks, hk, List.take_succ_cons]
        have hk' : maxArgs - 1 - (argCount + 1) = k := by omega
        rw [hrest, hk'] at hholds
        refine ⟨?_, hholds⟩
        have ha : r.2 ⟨argCount, hc'⟩ = .pointer (done ++ blanks).length := by
          rw [hframe ⟨argCount, hc'⟩ (Nat.lt_succ_self _), Function.update_self]
        -- a NUL stands behind the token: the one put there, or the one that ends the line
        obtain ⟨behind, hbehind⟩ : ∃ behind, sep.map (fun _ => (0 : UInt8)) ++ rest' ++ 0 :: tail =
            0 :: behind := by
          rcases hsep with ⟨rfl, rfl⟩ | ⟨d, rfl⟩
          · exact ⟨tail, by simp [List.length_eq_zero_iff.mp hlen]⟩
          · exact ⟨rest' ++ 0 :: tail, by simp⟩
        have hbuf' : r.1 = done ++ blanks ++ tok ++ 0 :: behind := by
          rw [hbuf, ← hbehind]
          simp only [hdone', List.append_assoc]
        rw [hbuf']
        exact Parsing.readEntry_token htok0 hc' ha
      · rw [hframe j (by omega)]
        exact update_frame hc' _ j hj
    · refine ⟨(done ++ blanks ++ tok ++ sep.map (fun _ => 0) ++ rest ++ 0 :: tail,
        Function.update args ⟨argCount, hc'⟩ .null), ?_,
        ⟨blanks ++ tok ++ sep.map (fun _ => 0) ++ rest, ?_, by simp only [List.append_assoc]⟩, ?_,
        update_frame hc' _⟩
      · unfold Vuln.parseLoop
        rw [hcall]
        simp only [dif_neg hroom, index_eq hc', ok_bind, pure_eq_ok]
      · rw [htext]
        simp only [List.length_append, List.length_map]
      · have hfull : maxArgs - 1 - argCount = 0 := by omega
        rw [hfull, List.take_zero]
        exact holds_null _ hc'

end Parse

/-! ### Memory -/

/-- What the memory of the vulnerable shell comes to, when some lines were recorded and the flags held
something at the start. -/
structure Keeps (garbage : Fin historySlots → ℤ) (s : Vuln.State) (log : List (List UInt8)) : Prop where
  window : Equivalence.Window s log
  /-- Every line was copied, and no copy is released. -/
  copies : s.heap.blocks = log.map (· ++ [0]) ∧ s.heap.releases = []
  /-- The ring knows the last four copies. -/
  slots : ∀ (i : Fin historySlots) p, s.history i = some p ↔ p % 4 = i ∧ p < log.length ∧ log.length ≤ p + 4
  /-- A flag is what it was until its slot is used. -/
  flags : ∀ i : Fin historySlots, s.slotUsed i = if (i : ℕ) < log.length then 1 else garbage i
  /-- The last line, whole. -/
  last : ∃ rest, s.lastCommand.bytes = log.getLast?.getD [] ++ 0 :: rest
  clean : ∀ line ∈ log, (0 : UInt8) ∉ line
  few : (log.length : ℤ) ≤ intMax

variable {garbage : Fin historySlots → ℤ} {s : Vuln.State} {log : List (List UInt8)} {line : List UInt8}

lemma keeps_start (garbage : Fin historySlots → ℤ) : Keeps garbage (Vuln.historyInit garbage) [] where
  window := Equivalence.window_start garbage
  copies := ⟨rfl, rfl⟩
  slots i p := by simp [Vuln.historyInit]
  flags i := by simp [Vuln.historyInit]
  last := ⟨List.replicate 31 0, rfl⟩
  clean := by simp
  few := by simp

lemma Keeps.out (hk : Keeps garbage s log) (out : List Event) (forks : ℕ) :
    Keeps garbage { s with out, forks } log :=
  ⟨hk.window.out out forks, hk.copies, hk.slots, hk.flags, hk.last, hk.clean, hk.few⟩

lemma Keeps.zero_notMem_last (hk : Keeps garbage s log) : (0 : UInt8) ∉ log.getLast?.getD [] := by
  cases h : log.getLast? with
  | none => simp
  | some line => exact hk.clean line (List.mem_of_getLast? h)

/-- A line that does not fit into `last_command` is written behind its end. -/
lemma recordHistory_long (h0 : (0 : UInt8) ∉ line) (hlong : historySize ≤ line.length) (rest : List UInt8) :
    Vuln.recordHistory s (line ++ 0 :: rest) = .error .outOfBounds := by
  have hlen : ¬ (line ++ [0]).length ≤ historySize := by
    rw [List.length_append, List.length_singleton]
    omega
  unfold Vuln.recordHistory CharArray.strcpy CharArray.overwrite
  rw [stringOf_append_nul h0, ok_bind, dif_neg hlen, error_bind]

lemma recordHistory_full (hk : Keeps garbage s log) (h0 : (0 : UInt8) ∉ line)
    (hshort : line.length < historySize) (hfull : (log.length : ℤ) = intMax) (rest : List UInt8) :
    Vuln.recordHistory s (line ++ 0 :: rest) = .error .signedOverflow := by
  have hfits : (line ++ [0]).length ≤ historySize := by
    rw [List.length_append, List.length_singleton]
    omega
  obtain ⟨a, ha, -⟩ := s.lastCommand.overwrite_eq hfits
  have hmod : s.historyCount % historySlots < historySlots := Nat.mod_lt _ (by decide)
  have hmax : (s.historyCount : ℤ) = intMax := by rw [hk.window.count]; exact hfull
  unfold Vuln.recordHistory CharArray.strcpy Heap.strdup
  rw [stringOf_append_nul h0, ok_bind, ha, ok_bind, index_eq hmod, ok_bind]
  simp only [ok_bind, pure_eq_ok, if_pos hmax]

lemma slots_push {history : Fin historySlots → Option ℕ} {n : ℕ} (hn : n % historySlots < historySlots)
    (h : ∀ (i : Fin historySlots) p, history i = some p ↔ p % 4 = i ∧ p < n ∧ n ≤ p + 4)
    (i : Fin historySlots) (p : ℕ) :
    Function.update history ⟨n % historySlots, hn⟩ (some n) i = some p ↔
      p % 4 = i ∧ p < n + 1 ∧ n + 1 ≤ p + 4 := by
  by_cases hi : i = ⟨n % historySlots, hn⟩
  · rw [hi, Function.update_self, Option.some.injEq]
    simp only [historySlots]
    omega
  · have hne : (i : ℕ) ≠ n % 4 := fun h => hi (Fin.ext h)
    rw [Function.update_of_ne hi, h]
    omega

lemma flags_push {flags : Fin historySlots → ℤ} {n : ℕ} (hn : n % historySlots < historySlots)
    (h : ∀ i : Fin historySlots, flags i = if (i : ℕ) < n then 1 else garbage i) (i : Fin historySlots) :
    Function.update flags ⟨n % historySlots, hn⟩ 1 i = if (i : ℕ) < n + 1 then 1 else garbage i := by
  have hlt : (i : ℕ) < 4 := i.isLt
  by_cases hi : i = ⟨n % historySlots, hn⟩
  · have hval : (i : ℕ) = n % 4 := congrArg Fin.val hi
    rw [hi, Function.update_self, ← hi, if_pos (by omega)]
  · have hne : (i : ℕ) ≠ n % 4 := fun h => hi (Fin.ext h)
    rw [Function.update_of_ne hi, h]
    by_cases hin : (i : ℕ) < n
    · rw [if_pos hin, if_pos (by omega)]
    · rw [if_neg hin, if_neg (by omega)]

/-- **`record_history` of the vulnerable shell** makes a copy and releases none. -/
theorem recordHistory_keeps (hk : Keeps garbage s log) (h0 : (0 : UInt8) ∉ line)
    (hshort : line.length < historySize) (hfew : (log.length : ℤ) ≠ intMax) (rest : List UInt8) :
    ∃ s', Vuln.recordHistory s (line ++ 0 :: rest) = .ok s' ∧ Keeps garbage s' (log ++ [line]) ∧
      s'.out = s.out ∧ s'.forks = s.forks := by
  have hmod : s.historyCount % historySlots < historySlots := Nat.mod_lt _ (by decide)
  have hfits : (line ++ [0]).length ≤ historySize := by
    rw [List.length_append, List.length_singleton]
    omega
  have hcount : log.length + 1 < 2 ^ 31 := by
    have := hk.few
    simp only [intMax] at this hfew
    omega
  have hmax : ¬ (s.historyCount : ℤ) = intMax := by rwa [hk.window.count]
  obtain ⟨s', hs', hwindow, hout, hforks⟩ := Equivalence.recordHistory_spec hk.window h0
    (by simp only [historySize] at hshort; omega) hcount rest
  obtain ⟨a, ha, hbytes⟩ := s.lastCommand.overwrite_eq hfits
  -- what is recorded is known field by field
  have heq : s' = { s with
      lastCommand := a
      heap := (s.heap.alloc (line ++ [0])).2
      history := Function.update s.history ⟨s.historyCount % historySlots, hmod⟩
        (some s.heap.blocks.length)
      slotUsed := Function.update s.slotUsed ⟨s.historyCount % historySlots, hmod⟩ 1
      historyCount := s.historyCount + 1 } := by
    unfold Vuln.recordHistory CharArray.strcpy Heap.strdup at hs'
    rw [stringOf_append_nul h0, ok_bind, ha, ok_bind, index_eq hmod, ok_bind] at hs'
    simp only [ok_bind, pure_eq_ok, if_neg hmax] at hs'
    exact (Except.ok.inj hs').symm
  have hblocks : s.heap.blocks.length = log.length := by rw [hk.copies.1, List.length_map]
  refine ⟨s', hs', ⟨hwindow, ?_, ?_, ?_, ?_, ?_, ?_⟩, hout, hforks⟩
  · rw [heq]
    refine ⟨?_, hk.copies.2⟩
    show s.heap.blocks ++ [line ++ [0]] = _
    rw [hk.copies.1, List.map_append, List.map_singleton]
  · intro i p
    rw [heq, List.length_append, List.length_singleton]
    simp only [hk.window.count, hblocks]
    exact slots_push _ hk.slots i p
  · intro i
    rw [heq, List.length_append, List.length_singleton]
    simp only [hk.window.count]
    exact flags_push _ hk.flags i
  · refine ⟨s.lastCommand.bytes.drop (line ++ [0]).length, ?_⟩
    rw [heq]
    simp [hbytes]
  · intro l hl
    rcases List.mem_append.mp hl with hl | hl
    · exact hk.clean l hl
    · rwa [List.mem_singleton.mp hl]
  · rw [List.length_append, List.length_singleton]
    simp only [intMax]
    omega

/-- `show_history` of the vulnerable shell prints the last line, through the format. -/
lemma showHistory_keeps (lib : LibC) (hk : Keeps garbage s log) (format : List UInt8) :
    Vuln.showHistory lib s format =
      (printf lib format (log.getLast?.getD [])).map fun text => s.printed .history text := by
  obtain ⟨rest, hrest⟩ := hk.last
  unfold Vuln.showHistory
  rw [hrest, stringOf_append_nul hk.zero_notMem_last, ok_bind]
  cases printf lib format (log.getLast?.getD []) <;> rfl

/-! ### Turns and runs -/

/-- A state of the vulnerable `main` and a session that agree. -/
structure Agrees (garbage : Fin historySlots → ℤ) (v : Vuln.Main) (r : Rough) : Prop where
  keeps : Keeps garbage v.shell r.log
  stdin : v.stdin = r.stdin
  forks : v.shell.forks = r.forks
  out : v.shell.out = r.out
  left : v.left = r.left
  status : v.status = r.status

variable {lib : LibC} {env : Env} {v : Vuln.Main} {r : Rough}

/-- What follows once a line is recorded and cut into tokens. -/
lemma obey_rough {argv : List (List UInt8)} {buffer : List UInt8} {args : Args}
    (ha : Agrees garbage v r) (hholds : Holds buffer args 0 argv) :
    Related (Agrees garbage)
      (do
        let name ← readEntry buffer args 0
        if name = some (ascii "exit") then pure { v with left := true }
        else if name = some (ascii "history") then do
          let arg ← readEntry buffer args 1
          let s ← Vuln.showHistory lib v.shell (arg.getD (ascii "%s"))
          pure { v with shell := s }
        else if name = some (ascii "recall") then do
          let arg ← readEntry buffer args 1
          let slot ← (arg.map atoi).getD (pure 0)
          let s ← Vuln.recallSlot v.shell slot
          pure { v with shell := s }
        else Vuln.executeCommand env v buffer args)
      (r.obey lib env argv) := by
  obtain ⟨hkeeps, hstdin, hforks, hout, hleft, hstatus⟩ := ha
  cases argv with
  | nil =>
    have hread : readEntry buffer args 0 = .ok none := hholds
    simp only [hread, ok_bind, Vuln.executeCommand, reduceCtorEq, if_false, pure_eq_ok]
    exact ⟨hkeeps, hstdin, hforks, hout, hleft, hstatus⟩
  | cons name argv =>
    have hread : readEntry buffer args 1 = .ok argv.head? := by
      cases argv with
      | nil => exact hholds.2
      | cons arg argv => exact hholds.2.1
    simp only [hholds.1, ok_bind, Option.some.injEq, Rough.obey]
    -- `exit`
    by_cases hexit : name = ascii "exit"
    · rw [if_pos hexit, if_pos hexit]
      exact ⟨hkeeps, hstdin, hforks, hout, rfl, hstatus⟩
    rw [if_neg hexit, if_neg hexit]
    -- `history`, whose argument is the format
    by_cases hhistory : name = ascii "history"
    · rw [if_pos hhistory, if_pos hhistory, hread, ok_bind, showHistory_keeps lib hkeeps]
      cases printf lib (argv.head?.getD (ascii "%s")) (r.log.getLast?.getD []) with
      | error fault => rfl
      | ok text =>
        refine ⟨hkeeps.out _ _, hstdin, hforks, ?_, hleft, hstatus⟩
        simp only [Vuln.State.printed, Rough.print, hout]
    rw [if_neg hhistory, if_neg hhistory]
    -- `recall`, whose argument goes to `atoi`
    by_cases hrecall : name = ascii "recall"
    · rw [if_pos hrecall, if_pos hrecall, hread, ok_bind]
      cases (argv.head?.map atoi).getD (pure 0) with
      | error fault => rfl
      | ok slot =>
        rw [ok_bind, ok_bind, Equivalence.recallSlot_spec hkeeps.window]
        refine ⟨hkeeps.out _ _, hstdin, hforks, ?_, hleft, hstatus⟩
        simp only [Vuln.State.printed, Rough.print, hout]
    rw [if_neg hrecall, if_neg hrecall]
    -- any other name is a command
    unfold Vuln.executeCommand Rough.command
    simp only [hholds.1, ok_bind, hforks, pure_eq_ok]
    cases env r.forks with
    | failed =>
      refine ⟨hkeeps.out _ _, hstdin, rfl, ?_, rfl, rfl⟩
      simp only [Rough.print, hout]
    | child execvp waitpid =>
      simp only [readArgv_eq hholds, ok_bind]
      refine ⟨hkeeps.out _ _, ?_, rfl, ?_, hleft, hstatus⟩
      · cases execvp <;> simp only [hstdin]
      · simp only [Rough.print, hout]

/-- **One line**, faults included. -/
theorem runLine_rough (ha : Agrees garbage v r) (h0 : (0 : UInt8) ∉ line) (tail : List UInt8) :
    Related (Agrees garbage) (Vuln.runLine lib env v (line ++ 0 :: tail)) (r.hear lib env line) := by
  unfold Vuln.runLine Rough.hear
  rw [strlen_append_nul h0, ok_bind]
  by_cases hempty : line = []
  · rw [if_pos hempty, if_pos (by rw [hempty]; rfl)]
    exact ⟨ha.keeps, ha.stdin, ha.forks, ha.out, ha.left, ha.status⟩
  rw [if_neg hempty, if_neg (by rwa [List.length_eq_zero_iff])]
  by_cases hlong : historySize ≤ line.length
  · rw [if_pos hlong, recordHistory_long h0 hlong, error_bind]
    rfl
  rw [if_neg hlong]
  by_cases hfull : (r.log.length : ℤ) = intMax
  · rw [if_pos hfull, recordHistory_full ha.keeps h0 (by omega) hfull, error_bind]
    rfl
  rw [if_neg hfull]
  obtain ⟨s, hs, hkeeps, hout, hforks⟩ := recordHistory_keeps ha.keeps h0 (by omega) hfull tail
  obtain ⟨⟨buffer, args⟩, hparse, -, hholds, -⟩ :=
    parseLoop_cut [] tail (fun _ => .indeterminate) 0 h0 (by decide)
  have hparse' : Vuln.parseInput (line ++ 0 :: tail) (fun _ => .indeterminate) = .ok (buffer, args) := hparse
  rw [hs, ok_bind, hparse', ok_bind]
  exact obey_rough (v := { v with shell := s, inputBuffer := some buffer })
    ⟨hkeeps, ha.stdin, hforks.trans ha.forks, hout.trans ha.out, ha.left, ha.status⟩ hholds

/-- **One turn.** -/
theorem turn_rough (ha : Agrees garbage v r) :
    Related (Agrees garbage) (Vuln.turn lib env v) (r.turn lib env) := by
  unfold Vuln.turn Rough.turn
  rw [ha.left]
  cases hl : r.left with
  | true => exact ha
  | false =>
  simp only [Bool.false_eq_true, if_false]
  unfold Vuln.loopBody getline
  rw [ha.stdin]
  obtain ⟨st, -, hline⟩ := getdelim_spec lib r.stdin
  cases hn : nextLine (r.stdin.drops lib) r.stdin.pending with
  | none =>
    rw [hn] at hline
    simp only [hline.1, pure_eq_ok]
    refine ⟨ha.keeps.out _ _, rfl, ha.forks, ?_, rfl, ha.status⟩
    simp only [Vuln.State.printed, Rough.print, ha.out, List.append_assoc, List.cons_append, List.nil_append]
  | some p =>
    obtain ⟨raw, rest⟩ := p
    rw [hn] at hline
    obtain ⟨tail, htail⟩ := Refinement.chomp_spec (nextLine_ne_nil hn).1 (nextLine_newline hn)
      (lib.spare v.inputBuffer raw)
    simp only [hline.1, htail]
    have hread : Agrees garbage
        { v with
          shell := { v.shell with out := v.shell.out ++ [prompt] }
          stdin := st
          inputBuffer := some (raw ++ 0 :: lib.spare v.inputBuffer raw) }
        { r.print [prompt] with stdin := st } :=
      ⟨ha.keeps.out _ _, rfl, ha.forks, by simp only [Rough.print, ha.out], ha.left, ha.status⟩
    exact runLine_rough hread (zero_notMem_lineText raw) tail

/-- **The vulnerable shell follows its session**, faults included, whatever the flags held at the start,
whatever the kernel answers, and wherever the stream is sent back to. -/
theorem turns_rough (lib : LibC) (env : Env) (garbage : Fin historySlots → ℤ) (stdin : Stdin) (n : ℕ) :
    Related (Agrees garbage) (Vuln.turns lib env n (Vuln.start garbage stdin))
      (Rough.turns lib env n (Rough.start stdin)) := by
  induction n with
  | zero => exact ⟨keeps_start garbage, rfl, rfl, rfl, rfl, rfl⟩
  | succ n ih => exact ih.bind fun v r ha => turn_rough ha

/-- **All that can be seen of the vulnerable shell** is what its session says: what it prints and executes,
what it has read, when it ends and with which status, up to and with the turn that faults. -/
theorem vuln_follows_session (lib : LibC) (env : Env) (garbage : Fin historySlots → ℤ) (stdin : Stdin)
    (n : ℕ) :
    Related (fun v s => v.shell.out = s.out ∧ v.stdin = s.stdin ∧ v.left = s.left ∧ v.status = s.status)
      (Vuln.turns lib env n (Vuln.start garbage stdin)) (Rough.turns lib env n (Rough.start stdin)) :=
  (turns_rough lib env garbage stdin n).mono fun _ _ ha => ⟨ha.out, ha.stdin, ha.left, ha.status⟩

/-! ### Undefined behaviour -/

/-- Why the program has no defined behaviour on a line behind those of a log, if it has none. -/
def trigger (log : List (List UInt8)) (line : List UInt8) : Option Fault :=
  if line = [] then none
  else if historySize ≤ line.length then some .outOfBounds
  else if (log.length : ℤ) = intMax then some .signedOverflow
  else
    match tokens blank line with
    | name :: arg :: _ =>
      if name = ascii "history" ∧ misuses arg = true then some .badFormat
      else if name = ascii "recall" ∧ ¬ (intMin ≤ leading arg ∧ leading arg ≤ intMax) then
        some .unrepresentable
      else none
    | _ => none

/-- The line that the next turn of a session hears. -/
def Rough.heard (lib : LibC) (s : Rough) : Option (List UInt8) :=
  if s.left then none else (s.stdin.getdelim lib).1.map lineText

lemma obey_error_iff {argv : List (List UInt8)} {fault : Fault} :
    r.obey lib env argv = .error fault ↔ ∃ arg rest,
      argv = ascii "history" :: arg :: rest ∧ printf lib arg (r.log.getLast?.getD []) = .error fault ∨
      argv = ascii "recall" :: arg :: rest ∧ atoi arg = .error fault := by
  cases argv with
  | nil => simp [Rough.obey]
  | cons name args =>
    have hexit : ascii "exit" ≠ ascii "history" ∧ ascii "exit" ≠ ascii "recall" := by decide
    have hrecall : ascii "history" ≠ ascii "recall" := by decide
    simp only [Rough.obey]
    by_cases h1 : name = ascii "exit"
    · simp [h1, hexit.1, hexit.2]
    rw [if_neg h1]
    by_cases h2 : name = ascii "history"
    · rw [if_pos h2, h2]
      cases args with
      | nil =>
        -- without an argument the format is `%s`
        have hstring : misuses (ascii "%s") = false := misuses_string
        refine iff_of_false (fun h => ?_) (by simp)
        rcases hprintf : printf lib (ascii "%s") (r.log.getLast?.getD []) with fault' | text
        · rw [(printf_error_iff.mp hprintf).1] at hstring
          cases hstring
        · simp [hprintf] at h
      | cons arg args =>
        simp only [List.head?_cons, Option.getD_some, List.cons.injEq, hrecall, false_and, or_false, true_and]
        cases hprintf : printf lib arg (r.log.getLast?.getD []) <;> simp [hprintf]
    rw [if_neg h2]
    by_cases h3 : name = ascii "recall"
    · rw [if_pos h3, h3]
      cases args with
      | nil => simp
      | cons arg args =>
        simp only [List.head?_cons, Option.map_some, Option.getD_some, List.cons.injEq, hrecall.symm, false_and,
          false_or, true_and]
        cases hatoi : atoi arg <;> simp [hatoi]
    rw [if_neg h3]
    exact iff_of_false nofun (by simp [h2, h3])

/-- **A line faults** exactly if it triggers something. -/
lemma hear_error_iff {fault : Fault} :
    r.hear lib env line = .error fault ↔ trigger r.log line = some fault := by
  unfold Rough.hear trigger
  by_cases hempty : line = []
  · rw [if_pos hempty, if_pos hempty]
    exact iff_of_false nofun nofun
  rw [if_neg hempty, if_neg hempty]
  -- the checks in the order of the turn: the copy, the count, the arguments
  by_cases hlong : historySize ≤ line.length
  · rw [if_pos hlong, if_pos hlong]
    rw [Except.error.injEq, Option.some.injEq]
  rw [if_neg hlong, if_neg hlong]
  by_cases hfull : (r.log.length : ℤ) = intMax
  · rw [if_pos hfull, if_pos hfull]
    rw [Except.error.injEq, Option.some.injEq]
  rw [if_neg hfull, if_neg hfull, obey_error_iff]
  cases htoks : tokens blank line with
  | nil => simp
  | cons name args =>
    cases args with
    | nil => simp [maxArgs]
    | cons arg args =>
      have hne : ascii "recall" ≠ ascii "history" := by decide
      simp only [maxArgs, List.take_succ_cons, List.cons.injEq, printf_error_iff, atoi_error_iff]
      -- a format
      by_cases h1 : name = ascii "history" ∧ misuses arg = true
      · rw [if_pos h1, Option.some.injEq, h1.1]
        simp only [hne.symm, false_and, or_false, true_and]
        constructor
        · rintro ⟨_, _, -, -, rfl⟩
          rfl
        · rintro rfl
          exact ⟨arg, _, ⟨rfl, rfl⟩, h1.2, rfl⟩
      rw [if_neg h1]
      -- a number
      by_cases h2 : name = ascii "recall" ∧ ¬ (intMin ≤ leading arg ∧ leading arg ≤ intMax)
      · rw [if_pos h2, Option.some.injEq, h2.1]
        simp only [hne, false_and, false_or, true_and]
        constructor
        · rintro ⟨_, _, -, -, rfl⟩
          rfl
        · rintro rfl
          exact ⟨arg, _, ⟨rfl, rfl⟩, h2.2, rfl⟩
      rw [if_neg h2]
      refine iff_of_false ?_ nofun
      rintro ⟨_, _, ⟨⟨hname, rfl, -⟩, hbad, -⟩ | ⟨⟨hname, rfl, -⟩, hbad, -⟩⟩
      · exact h1 ⟨hname, hbad⟩
      · exact h2 ⟨hname, hbad⟩

lemma turn_error_iff {fault : Fault} :
    r.turn lib env = .error fault ↔ ∃ line, r.heard lib = some line ∧ trigger r.log line = some fault := by
  unfold Rough.turn Rough.heard
  cases r.left with
  | true => exact iff_of_false nofun fun ⟨_, h, _⟩ => nomatch h
  | false =>
    simp only [Bool.false_eq_true, if_false]
    rcases r.stdin.getdelim lib with ⟨_ | raw, stdin⟩
    · exact iff_of_false nofun fun ⟨_, h, _⟩ => nomatch h
    · simp only [Option.map_some, Option.some.injEq, exists_eq_left']
      exact hear_error_iff

/-- A run of a session faults in one of its turns. -/
lemma rough_turns_error_iff {fault : Fault} (n : ℕ) (start : Rough) :
    Rough.turns lib env n start = .error fault ↔
      ∃ k < n, ∃ s, Rough.turns lib env k start = .ok s ∧ s.turn lib env = .error fault := by
  induction n with
  | zero => exact iff_of_false nofun fun ⟨k, hk, _⟩ => absurd hk (Nat.not_lt_zero k)
  | succ n ih =>
    have hstep : Rough.turns lib env (n + 1) start =
        Rough.turns lib env n start >>= fun s => s.turn lib env := rfl
    rw [hstep]
    cases hn : Rough.turns lib env n start with
    | error fault' =>
      rw [error_bind, ← hn, ih]
      constructor
      · rintro ⟨k, hk, h⟩
        exact ⟨k, by omega, h⟩
      · rintro ⟨k, hk, s, hs, h⟩
        refine ⟨k, Nat.lt_of_le_of_ne (by omega) fun hkn => ?_, s, hs, h⟩
        rw [hkn, hn] at hs
        cases hs
    | ok s =>
      rw [ok_bind]
      constructor
      · exact fun h => ⟨n, Nat.lt_succ_self n, s, hn, h⟩
      · rintro ⟨k, hk, s', hs, h⟩
        rcases Nat.lt_succ_iff_lt_or_eq.mp hk with hk | rfl
        · have := ih.mpr ⟨k, hk, s', hs, h⟩
          rw [hn] at this
          cases this
        · rw [hn] at hs
          cases hs
          exact h

/-- **A run of the vulnerable shell faults** exactly if it hears a line that triggers something, and the
fault is that of the line. -/
theorem turns_error_iff (lib : LibC) (env : Env) (garbage : Fin historySlots → ℤ) (stdin : Stdin) (n : ℕ)
    (fault : Fault) :
    Vuln.turns lib env n (Vuln.start garbage stdin) = .error fault ↔
      ∃ k < n, ∃ s line, Rough.turns lib env k (Rough.start stdin) = .ok s ∧ s.heard lib = some line ∧
        trigger s.log line = some fault := by
  rw [(turns_rough lib env garbage stdin n).error_iff, rough_turns_error_iff]
  simp only [turn_error_iff, exists_and_left]

/-! ### Leaks -/

/-- The copies that are live and that the ring does not know. -/
def lost (s : Vuln.State) : List ℕ :=
  (List.range s.heap.blocks.length).filter fun p => s.heap.Live p ∧ ∀ i, s.history i ≠ some p

lemma Keeps.live_iff (hk : Keeps garbage s log) (p : ℕ) : s.heap.Live p ↔ p < log.length := by
  unfold Heap.Live
  rw [hk.copies.1, hk.copies.2]
  simp

lemma Keeps.lost_eq (hk : Keeps garbage s log) : lost s = List.range (log.length - 4) := by
  have hlen : s.heap.blocks.length = log.length := by rw [hk.copies.1, List.length_map]
  have hlost : ∀ p, (s.heap.Live p ∧ ∀ i, s.history i ≠ some p) ↔ p < log.length - 4 := by
    intro p
    rw [hk.live_iff]
    constructor
    · rintro ⟨hp, hno⟩
      have := mt (hk.slots ⟨p % 4, Nat.mod_lt _ (by decide)⟩ p).mpr (hno _)
      simp only [true_and, not_and] at this
      omega
    · refine fun hp => ⟨by omega, fun i hi => ?_⟩
      have := (hk.slots i p).mp hi
      omega
  unfold lost
  rw [hlen]
  simp only [hlost]
  obtain ⟨m, hm⟩ : ∃ m, log.length = log.length - 4 + m := ⟨log.length - (log.length - 4), by omega⟩
  conv_lhs => rw [hm, List.range_add, List.filter_append]
  have hout : ∀ p ∈ (List.range m).map (log.length - 4 + ·), ¬ decide (p < log.length - 4) = true := by
    intro p hp
    obtain ⟨a, -, rfl⟩ := List.mem_map.mp hp
    rw [decide_eq_true_eq]
    exact Nat.not_lt.mpr (Nat.le_add_right _ _)
  rw [← hm, List.filter_eq_self.mpr (by simp), List.filter_eq_nil_iff.mpr hout, List.append_nil]

/-- **No copy is released**, all but the last four are lost, and the flags of the slots that no line has
reached are what they were: in every state of a run that did not fault. -/
theorem copies_leak (lib : LibC) (env : Env) (garbage : Fin historySlots → ℤ) (stdin : Stdin) (n : ℕ) :
    Related
      (fun v s => v.shell.heap.releases = [] ∧ v.shell.heap.blocks = s.log.map (· ++ [0]) ∧
        lost v.shell = List.range (s.log.length - 4) ∧
        ∀ i : Fin historySlots, v.shell.slotUsed i = if (i : ℕ) < s.log.length then 1 else garbage i)
      (Vuln.turns lib env n (Vuln.start garbage stdin)) (Rough.turns lib env n (Rough.start stdin)) :=
  (turns_rough lib env garbage stdin n).mono fun _ _ ha =>
    ⟨ha.keeps.copies.2, ha.keeps.copies.1, ha.keeps.lost_eq, ha.keeps.flags⟩

end CSecureBuild.Shell.Planted
