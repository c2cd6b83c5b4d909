import CSecureBuild.Shell.Globals
import CSecureBuild.Shell.Parsing

/-!
The hardened shell refines the reference session: turn for turn the program does what the session
does, and no step of it is undefined.

`Agrees` relates what a state of `main` and a session have done, `Follows` adds the input before
them; `runLine_spec` is one line, `turn_follows` one turn and `turns_follows` a run.
-/

namespace CSecureBuild.Shell.Refinement

open CSecureBuild.CLib.Memory CSecureBuild.CLib.Tokens CSecureBuild.CLib.Stdio
open CSecureBuild.Shell.Process CSecureBuild.Shell.Hardened
open CSecureBuild.Shell.Reference CSecureBuild.Shell.Parsing CSecureBuild.Shell.Globals

variable {line : List UInt8}

/-! ### A line -/

/-- A state of `main` and a session that have done the same, apart from the input. -/
structure Agrees (m : Main) (S : Session) : Prop where
  window : Window m.shell S.log
  out : m.shell.out = S.out
  forks : m.shell.forks = S.forks
  done : m.done = S.ended
  status : m.status = S.status

/-- `execute_command` hands the vector of the array to one child. -/
lemma executeCommand_spec (env : Env) (s : State) {buffer : List UInt8} {args : Args}
    {name : List UInt8} {argv : List (List UInt8)} (hh : Holds buffer args 0 (name :: argv)) :
    executeCommand env s buffer args =
      .ok { s with
        forks := s.forks + 1
        out := s.out ++ commandEvents (name :: argv) (env s.forks) } := by
  unfold executeCommand
  rw [hh.1, ok_bind]
  simp only [readArgv_eq hh]
  cases env s.forks with
  | failed => rfl
  | child execvp waitpid =>
    simp only [ok_bind, pure_eq_ok, commandEvents, List.append_assoc]

/-- **Obeying a line that fits.** -/
lemma dispatch_spec (lib : LibC) (env : Env) {m : Main} {S : Session} (ha : Agrees m S)
    {buffer : List UInt8} {args : Args} {toks : List (List UInt8)}
    (hn : toks.length ≤ maxArgs - 1) (hh : Holds buffer args 0 toks) :
    ∃ m', (dispatchBuiltin lib m.shell buffer args >>= switchBuiltin env m buffer args) = .ok m' ∧
      Agrees m' (S.obey lib env toks) ∧ m'.stdin = m.stdin ∧ m'.inputBuffer = m.inputBuffer := by
  obtain ⟨hg, hout, hforks, hdone, hstatus⟩ := ha
  unfold Session.obey
  rw [if_neg (by omega)]
  have hprint : ∀ (origin : Origin) (text : List UInt8),
      Agrees { m with shell := m.shell.printed origin text } (S.print [.printed origin text]) := by
    intro origin text
    refine ⟨hg.out _ _, ?_, hforks, hdone, hstatus⟩
    simp only [State.printed, Session.print, hout]
  cases toks with
  | nil =>
    have h0 : readEntry buffer args 0 = .ok none := hh
    refine ⟨m, ?_, ⟨hg, hout, hforks, hdone, hstatus⟩, rfl, rfl⟩
    simp only [dispatchBuiltin, switchBuiltin, executeCommand, h0, ok_bind, pure_eq_ok]
  | cons name argv =>
    simp only [dispatchBuiltin, hh.1, ok_bind]
    -- `exit`
    by_cases hexit : name = ascii "exit"
    · refine ⟨{ m with keepRunning := false }, ?_, ⟨?_, ?_, ?_, ?_, ?_⟩, rfl, rfl⟩
      · simp only [if_pos hexit, ok_bind, pure_eq_ok, switchBuiltin]
      · simpa only [if_pos hexit] using hg
      · simpa only [if_pos hexit] using hout
      · simpa only [if_pos hexit] using hforks
      · simp only [if_pos hexit, Main.done, Bool.not_false, Bool.or_true]
      · simpa only [if_pos hexit] using hstatus
    simp only [if_neg hexit]
    -- `history`
    by_cases hhist : name = ascii "history"
    · simp only [if_pos hhist, showHistory_spec hg, ok_bind, pure_eq_ok, switchBuiltin]
      exact ⟨_, rfl, hprint _ _, rfl, rfl⟩
    simp only [if_neg hhist]
    -- `recall`, with or without an argument
    by_cases hrec : name = ascii "recall"
    · simp only [if_pos hrec]
      cases argv with
      | nil =>
        have h1 : readEntry buffer args 1 = .ok none := hh.2
        simp only [h1, ok_bind, recallSlot_spec hg, pure_eq_ok, switchBuiltin, recallArgs,
          recallNumber]
        exact ⟨_, rfl, hprint _ _, rfl, rfl⟩
      | cons arg argv =>
        have h1 : readEntry buffer args 1 = .ok (some arg) := hh.2.1
        simp only [h1, ok_bind, recallArgs, recallNumber]
        cases hp : parseInt lib arg 0 with
        | mk number slot =>
          cases number with
          | false =>
            simp only [if_true, pure_eq_ok, ok_bind, switchBuiltin]
            exact ⟨_, rfl, hprint _ _, rfl, rfl⟩
          | true =>
            simp only [Bool.true_eq_false, if_false, recallSlot_spec hg, pure_eq_ok, ok_bind,
              switchBuiltin]
            exact ⟨_, rfl, hprint _ _, rfl, rfl⟩
    simp only [if_neg hrec, pure_eq_ok, ok_bind, switchBuiltin, executeCommand_spec env m.shell hh]
    refine ⟨_, rfl, ⟨hg.out _ _, ?_, ?_, hdone, hstatus⟩, rfl, rfl⟩
    · simp only [Session.print, hout, hforks]
    · simp only [hforks]

/-- **One line.** -/
theorem runLine_spec (lib : LibC) (env : Env) {m : Main} {S : Session} (ha : Agrees m S)
    (h0 : (0 : UInt8) ∉ line) (tail : List UInt8) :
    ∃ m', runLine lib env m (line ++ 0 :: tail) = .ok m' ∧ Agrees m' (S.hear lib env line) ∧
      m'.stdin = m.stdin ∧ m'.inputBuffer ≠ none := by
  unfold runLine Session.hear
  rw [strlen_append_nul h0, ok_bind]
  -- an empty line is not recorded
  by_cases hempty : line = []
  · rw [if_pos hempty, if_pos (by rw [hempty]; rfl)]
    exact ⟨_, rfl, ⟨ha.window, ha.out, ha.forks, ha.done, ha.status⟩, rfl, by simp⟩
  rw [if_neg hempty, if_neg (by rwa [List.length_eq_zero_iff])]
  obtain ⟨s, hs, hg, hout, hforks⟩ := recordHistory_spec ha.window h0 tail
  rw [hs, ok_bind]
  have hrec : ∀ b, Agrees { m with shell := s, inputBuffer := some b }
      { S with log := S.log ++ [line] } := fun b =>
    ⟨hg, hout.trans ha.out, hforks.trans ha.forks, ha.done, ha.status⟩
  have hparse : parseInput (line ++ 0 :: tail) (fun _ => .indeterminate) =
      parseLoop ([] ++ line ++ 0 :: tail) (fun _ => .indeterminate) 0 ([] : List UInt8).length := rfl
  rw [hparse]
  -- any other line is, whether its arguments fit or not
  by_cases hfit : (tokens blank line).length ≤ maxArgs - 1
  · obtain ⟨⟨fits, buffer, args⟩, hp, hfits, -, hholds, -⟩ :=
      parseLoop_fits [] tail (fun _ => .indeterminate) 0 h0 (by omega)
    rw [hp, ok_bind]
    simp only at hfits hholds
    simp only [hfits, Bool.true_eq_false, if_false]
    obtain ⟨m', hm', ha', hst, hbuf⟩ := dispatch_spec lib env (hrec buffer) hfit hholds
    exact ⟨m', hm', ha', hst, by rw [hbuf]; simp⟩
  · obtain ⟨buffer, args, hp, -⟩ :=
      parseLoop_refuses [] tail (fun _ => .indeterminate) 0 h0 (by omega) (by omega)
    rw [hp, ok_bind]
    simp only [if_true]
    refine ⟨_, rfl, ?_, rfl, by simp⟩
    unfold Session.obey
    rw [if_pos (by omega)]
    obtain ⟨hg', hout', hforks', hdone', hstatus'⟩ := hrec buffer
    refine ⟨hg'.out _ _, ?_, hforks', hdone', hstatus'⟩
    simp only [State.printed, Session.print, hout, ha.out]

/-! ### A turn and a run -/

lemma lineText_append {body sep : List UInt8} (hb : newline ∉ body)
    (hs : sep = [] ∨ sep = [newline]) : lineText (body ++ sep) = cstring body := by
  unfold lineText cstring
  induction body with
  | nil => rcases hs with rfl | rfl <;> rfl
  | cons c body ih =>
    obtain ⟨hc, hb⟩ := not_or.mp (mt List.mem_cons.mpr hb)
    rw [List.cons_append]
    by_cases h0 : c = 0
    · simp [h0]
    · rw [List.takeWhile_cons_of_pos (by simp [h0, Ne.symm hc]),
        List.takeWhile_cons_of_pos (by simp [h0]), ih hb]

/-- The line buffer of the loop: the text of the line, a NUL, and what does not matter. -/
lemma chomp_spec {raw : List UInt8} (hne : raw ≠ [])
    (hnl : newline ∉ raw ∨ ∃ body, raw = body ++ [newline] ∧ newline ∉ body) (more : List UInt8) :
    ∃ rest, chomp (raw ++ 0 :: more) raw.length = lineText raw ++ 0 :: rest := by
  have hcut : ∀ body more : List UInt8, ∃ rest, body ++ 0 :: more = cstring body ++ 0 :: rest := by
    intro body more
    by_cases h0 : (0 : UInt8) ∈ body
    · obtain ⟨rest, hrest⟩ := exists_eq_cstring_append h0
      refine ⟨rest ++ 0 :: more, ?_⟩
      conv_lhs => rw [hrest]
      simp
    · exact ⟨more, by rw [cstring_of_notMem h0]⟩
  rcases hnl with hnl | ⟨body, rfl, hnl⟩
  · obtain ⟨rest, hrest⟩ := hcut raw more
    have htext : lineText raw = cstring raw := by simpa using lineText_append hnl (Or.inl rfl)
    refine ⟨rest, ?_⟩
    unfold chomp
    rw [if_neg, hrest, htext]
    rintro ⟨hpos, hlast⟩
    rw [List.getElem?_append_left (by omega)] at hlast
    exact hnl (List.mem_of_getElem? hlast)
  · obtain ⟨rest, hrest⟩ := hcut body (0 :: more)
    refine ⟨rest, ?_⟩
    rw [lineText_append hnl (Or.inr rfl), ← hrest]
    unfold chomp
    have hpos : (body ++ [newline]).length - 1 = body.length := by simp
    rw [if_pos ⟨by simp, by rw [hpos]; simp⟩, hpos]
    simp

/-- A state of `main` and a session that have done the same and have the same input before them. -/
structure Follows (lib : LibC) (drops broken : Bool) (m : Main) (S : Session) : Prop where
  agrees : Agrees m S
  pending : m.left = false → m.stdin.pending = S.pending
  drops : m.stdin.drops lib = drops
  broken : m.stdin.broken = broken

variable {lib : LibC} {env : Env} {drops broken : Bool}

lemma follows_start (lib : LibC) (stdin : Stdin) :
    Follows lib (stdin.drops lib) stdin.broken (start stdin) (Session.start stdin.pending) :=
  ⟨⟨window_start, rfl, rfl, rfl, rfl⟩, fun _ => rfl, rfl, rfl⟩

/-- **One turn.** -/
theorem turn_follows {m : Main} {S : Session} (hf : Follows lib drops broken m S) :
    ∃ m', turn lib env m = .ok m' ∧
      Follows lib drops broken m' (S.turn lib env drops broken) := by
  obtain ⟨ha, hpend, hdrops, hbroken⟩ := hf
  unfold turn Session.turn
  rw [← ha.done]
  cases hd : m.done with
  | true => exact ⟨m, rfl, ha, hpend, hdrops, hbroken⟩
  | false =>
  simp only [Bool.false_eq_true, if_false]
  obtain ⟨st, ⟨hfile, hseek, hbr⟩, hline⟩ := getdelim_spec lib m.stdin
  have hleft : m.left = false := (Bool.or_eq_false_iff.mp hd).1
  rw [hpend hleft, hdrops] at hline
  have hsame : st.broken = broken ∧ st.drops lib = drops := by
    refine ⟨hbr.trans hbroken, ?_⟩
    rw [← hdrops]
    unfold Stdin.drops
    rw [hbr]
  unfold loopBody getline
  cases hn : nextLine drops S.pending with
  -- the end of the input, or an error
  | none =>
    rw [hn] at hline
    obtain ⟨hget, heof⟩ := hline
    rw [hbroken] at heof
    simp only [hget, pure_eq_ok]
    refine ⟨_, rfl, ⟨?_, ?_, ?_, rfl, ?_⟩, fun h => absurd h (by simp), hsame.2, hsame.1⟩
    · cases broken <;> simp only [heof] <;> exact ha.window.out _ _
    · cases broken <;>
        simp [heof, State.printed, State.reported, Session.stop, Session.print, ha.out]
    · cases broken <;>
        simp [heof, State.printed, State.reported, Session.stop, Session.print, ha.forks]
    · cases broken <;> simp [heof, Session.stop, Session.print, ha.status]
  | some p =>
    obtain ⟨raw, rest⟩ := p
    rw [hn] at hline
    obtain ⟨hget, hrest⟩ := hline
    simp only [hget]
    obtain ⟨tail, htail⟩ := chomp_spec (nextLine_ne_nil hn).1 (nextLine_newline hn)
      (lib.spare m.inputBuffer raw)
    rw [htail]
    -- a line was read, behind the prompt
    have hread : Agrees { m with
        shell := { m.shell with out := m.shell.out ++ [prompt] }
        stdin := st
        inputBuffer := some (raw ++ 0 :: lib.spare m.inputBuffer raw) }
        { S.print [prompt] with pending := rest } := by
      refine ⟨ha.window.out _ _, ?_, ha.forks, ha.done, ha.status⟩
      simp only [Session.print, ha.out]
    obtain ⟨m', hm', ha', hst, -⟩ :=
      runLine_spec lib env hread (zero_notMem_lineText raw) tail
    refine ⟨m', hm', ha', fun _ => ?_, ?_, ?_⟩
    · rw [hst, pending_hear, ← hrest]
    · rw [hst]
      exact hsame.2
    · rw [hst]
      exact hsame.1

/-- **A run**: after any number of turns the program has done what the session has done, and no
step of it was undefined. -/
theorem turns_follows (lib : LibC) (env : Env) (stdin : Stdin) (n : ℕ) :
    ∃ m, turns lib env n (start stdin) = .ok m ∧
      Follows lib (stdin.drops lib) stdin.broken m (Session.run lib env stdin n) := by
  induction n with
  | zero => exact ⟨start stdin, rfl, follows_start lib stdin⟩
  | succ n ih =>
    obtain ⟨m, hm, hf⟩ := ih
    obtain ⟨m', hm', hf'⟩ := turn_follows hf
    refine ⟨m', ?_, hf'⟩
    unfold turns
    rw [hm, ok_bind, hm']

end CSecureBuild.Shell.Refinement
