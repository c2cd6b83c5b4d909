import CSecureBuild.Harness.Resume
import CSecureBuild.Lib.Errexit
import CSecureBuild.PyLib.Containers

/-!
`llm-eval/harness/run_claude.sh`: a run with one model, the removal of the records of the items it failed on, and
a run with another model.

The output file is a state machine, with runs and removals each of which can be killed anywhere (`Step`). In every
state each line that can be read is a record that `triage_one` made of an item from the reply to its request,
character by character, and no item has two (`records_of_steps`). The script gets past the removal only if every
line can be read; at its end there is one record for each item, and those that are not from the second model
have an answer (`claude_once`).
-/

namespace CSecureBuild.Harness.Retry

open CSecureBuild.PyLib.Json CSecureBuild.PyLib.Text CSecureBuild.PyLib.Containers CSecureBuild.Lib.LineLog
open CSecureBuild.Lib.Errexit CSecureBuild.Harness.RunEval CSecureBuild.Harness.Resume

/-! ### The removal -/

/-- The members of a dictionary that was read. -/
abbrev Fields := List (List Char × List Char)

/-- What iterating over a file gives: lines end with a line feed, a carriage return or both. -/
def fileLinesKeep : List Char → List (List Char)
  | [] => []
  | c :: rest =>
    if (c = '\n' ∨ c = '\r') ∧ ¬ (c = '\r' ∧ rest.head? = some '\n') then [c] :: fileLinesKeep rest
    else
      match fileLinesKeep rest with
      | [] => [[c]]
      | line :: lines => (c :: line) :: lines

/-- The lines without their ends, which `json.loads` skips. -/
def fileLines (file : List Char) : List (List Char) :=
  (fileLinesKeep file).map fun line => line.takeWhile fun c => !(c = '\n' || c = '\r')

/-- `json.dumps` of a dictionary that was read. Its values are written as they were. -/
def dumpRow (ms : Fields) : List Char :=
  '{' :: List.intercalate [',', ' '] ((Dict.ofItems ms).entries.map fun e => e.1 ++ ':' :: ' ' :: e.2) ++ ['}']

/-- The numbers that count as false. -/
def zeros : List (List Char) := ["0".toList, "0.0".toList, "-0.0".toList]

/-- `r.get("schema_valid")` counts as true. -/
def validRow (ms : Fields) : Bool :=
  (get ms "schema_valid".toList).any fun text => text ∉ falsy && text ∉ zeros

/-- A row of the file, with its id: `none` is an exception. -/
def rowOf (line : List Char) : Option (List Char × Fields) :=
  match loads line with
  | .object ms => (get ms "id".toList).bind fun id => if unhashable id then none else some (id, ms)
  | _ => none

/-- `failed` -/
def failedIds (rows : List (List Char × Fields)) : List (List Char) :=
  (rows.filter fun row => !validRow row.2).map Prod.fst

/-- The second step of the script: what it writes, unless it raises at some row. -/
def prune (file : List Char) : Option (List Char) :=
  ((fileLines file).mapM rowOf).map fun rows =>
    (rows.filter fun row => row.1 ∉ failedIds rows).flatMap fun row => dumpRow row.2 ++ ['\n']

/-! ### The script -/

/-- The exit code of `run_eval.py`. -/
def status : Ending → ℕ
  | .finished => 0
  | .gone => 2
  | .capped => 3
  | .raised => 1

section

variable {F : Type} [Zero F] [Add F] [LE F] [DecidableLE F]
  (leak : Item → Option Leak) (number : List Char → Option F) (set : ItemSet)

/-- A run of `run_eval.py`: its arguments, and what the backend replies. -/
structure Run (F : Type) where
  args : Args F
  replies : ℕ → Reply

/-- What a run comes to when nothing kills it. -/
def Run.outcome (i : Run F) (file : List Char) : RunEval.Outcome :=
  cmdRun leak number i.args set.items i.replies file

/-- The output file after a run, which was killed when it had written a number of characters, or was not. -/
def Run.leaves (i : Run F) (kill : Option ℕ) (file : List Char) : List Char :=
  match kill with
  | none => (i.outcome leak number set file).file
  | some k => (i.outcome leak number set file).file.take (file.length + k)

/-- A command that runs `run_eval.py`. -/
def runCmd (i : Run F) : Cmd (List Char) :=
  .simple fun file => (status (i.outcome leak number set file).ending, (i.outcome leak number set file).file)

/-- A run on a file asks for an item with its request of this number, counted from zero. The replies are counted
from one. -/
def Run.Asks (i : Run F) (file : List Char) (k : ℕ) (item : Item) : Prop :=
  ∃ done, doneIds (splitlines file) = some done ∧ (todo i.args.source done set.items)[k]? = some item

/-- The command that removes records. -/
def pruneCmd : Cmd (List Char) :=
  .simple fun file =>
    match prune file with
    | none => (1, file)
    | some kept => (0, kept)

/-- `run_claude.sh` -/
def runClaude (first second : Run F) : Cmd (List Char) :=
  Cmd.all [.orElse (runCmd leak number set first) (Cmd.set id), pruneCmd, runCmd leak number set second]

/-- What can happen to the output file: a run or a removal, which is killed when it has written a number of
characters, or is not. -/
inductive Step (F : Type) where
  | run (i : Run F) (kill : Option ℕ)
  | prune (kill : Option ℕ)

/-- The output file after a step. A removal that does not raise writes the file anew. -/
def Step.leaves : Step F → List Char → List Char
  | .run i kill, file => i.leaves leak number set kill file
  | .prune kill, file =>
    match Retry.prune file, kill with
    | none, _ => file
    | some kept, none => kept
    | some kept, some k => kept.take k

/-- The output file after some steps, from none. -/
def fileOf (steps : List (Step F)) : List Char :=
  steps.foldl (fun file step => step.leaves leak number set file) []

end

/-! ### Reading rows -/

section

variable {text line file : List Char} {ms : Members}

/-- Where lines end with line feeds only, `splitlines` gives the same ones. -/
lemma fileLinesKeep_eq (h : ∀ c ∈ text, isBreak c = true → c = '\n') :
    fileLinesKeep text = splitlinesKeep text := by
  induction text with
  | nil => rfl
  | cons c rest ih =>
    have hc : (c = '\n' ∨ c = '\r') ↔ isBreak c = true := by
      constructor
      · rintro (rfl | rfl) <;> decide
      · exact fun hbreak => .inl (h c List.mem_cons_self hbreak)
    unfold fileLinesKeep splitlinesKeep
    rw [ih fun d hd => h d (List.mem_cons_of_mem c hd)]
    by_cases hend : (c = '\n' ∨ c = '\r') ∧ ¬ (c = '\r' ∧ rest.head? = some '\n')
    · rw [if_pos hend, if_pos ⟨hc.mp hend.1, hend.2⟩]
    · refine (if_neg hend).trans (Eq.trans ?_ (if_neg fun h => hend ⟨hc.mpr h.1, h.2⟩).symm)
      cases splitlinesKeep rest <;> rfl

lemma takeWhile_dropBreak (h : ∀ c ∈ line, isBreak c = true → c = '\n') :
    line.takeWhile (fun c => !(c = '\n' || c = '\r')) = dropBreak line := by
  unfold dropBreak
  induction line with
  | nil => rfl
  | cons c rest ih =>
    have hc : (c = '\n' || c = '\r') = isBreak c := by
      rw [Bool.eq_iff_iff]
      constructor
      · intro hc
        rw [Bool.or_eq_true, decide_eq_true_eq, decide_eq_true_eq] at hc
        rcases hc with rfl | rfl <;> decide
      · exact fun hbreak => by simp [h c List.mem_cons_self hbreak]
    rw [List.takeWhile_cons, List.takeWhile_cons, hc, ih fun d hd => h d (List.mem_cons_of_mem c hd)]

lemma fileLines_eq (h : ∀ c ∈ text, isBreak c = true → c = '\n') : fileLines text = splitlines text := by
  unfold fileLines splitlines
  rw [fileLinesKeep_eq h]
  refine List.map_congr_left fun line hline => takeWhile_dropBreak fun c hc hbreak => h c ?_ hbreak
  rw [← flatten_splitlinesKeep text]
  exact List.mem_flatten_of_mem hline hc

lemma breaks_text {R I : Type} {C : Codec R I} (log : Log C) : ∀ c ∈ log.text, isBreak c = true → c = '\n' := by
  intro c hc hbreak
  have hentry : ∀ e : Entry C, c ∉ e.text := fun e hmem => by
    have := e.line c hmem
    rw [hbreak] at this
    cases this
  unfold Log.text at hc
  rcases List.mem_append.mp hc with hc | hc
  · obtain ⟨e, -, hc⟩ := List.mem_flatMap.mp hc
    rcases List.mem_append.mp hc with hc | hc
    · exact absurd hc (hentry e)
    · exact List.mem_singleton.mp hc
  · cases htail : log.tail with
    | none => simp [htail] at hc
    | some e => exact absurd (by simpa [htail] using hc) (hentry e)

/-- **A record is written again as it was.** -/
lemma dumpRow_entries (h : (ms.map fun kv => kv.1.name).Nodup) : dumpRow (entries ms) = dumps ms := by
  have hkeys : ((entries ms).map Prod.fst).Nodup := by
    have hquoted : (entries ms).map Prod.fst = (ms.map fun kv => kv.1.name).map fun name => '"' :: name ++ ['"'] := by
      simp [entries, Key.quoted, Function.comp_def]
    rw [hquoted]
    exact h.map fun a b hab => by simpa using hab
  unfold dumpRow dumps
  rw [Dict.entries_ofItems hkeys, entries, List.map_map]
  rfl

end

/-! ### What a run appends -/

section

variable {F : Type} {leak : Item → Option Leak} {args : Args F} {made : Item → Members → Prop}

/-- **No key comes twice** in a record. -/
lemma nodup_keys {reply : Reply} {item : Item} {ms : Members} (h : triageOne leak args reply item = some ms) :
    (ms.map fun kv => kv.1.name).Nodup := by
  unfold triageOne at h
  split at h
  · cases h
    simp [header, key]
  · obtain ⟨fields, hfields, rfl⟩ := Option.map_eq_some_iff.mp h
    cases reply with
    | raises => cases hfields
    | failed latency error =>
      cases hfields
      simp [header, key]
    | answered latency answer direct usage =>
      cases hfields
      cases answer <;> simp [header, key, answerMembers]
    | claude latency info answer =>
      cases hfields
      cases info with
      | failed error => cases answer <;> simp [header, key, answerMembers, Info.members, Info.hasError]
      | reported p c u f error =>
        cases answer <;> cases error <;> simp [header, key, answerMembers, Info.members, Info.hasError]

/-- A line that can be read, as what it is. -/
def readLine (line : List Char) : Option (List Char) := (lineId line).map fun _ => line

lemma head_recordLine (r : Record) : (dumps r.members).head? = some '{' := rfl

lemma break_recordLine (r : Record) : ∀ c ∈ dumps r.members, isBreak c = false := recordCodec.enc_line r

lemma readLine_enc (r : Record) : readLine (dumps r.members) = some (dumps r.members) := by
  unfold readLine
  rw [show lineId (dumps r.members) = some r.id from recordCodec.read_enc r]
  rfl

lemma readLine_prefix (r : Record) (p : List Char) (hp : p <+: dumps r.members) (hne : p ≠ dumps r.members) :
    readLine p = none := by
  unfold readLine
  rw [show lineId p = none from recordCodec.read_prefix r p hp hne]
  rfl

lemma readLine_glued (r : Record) (p front : List Char) (hp : p <+: dumps r.members) (hne : p ≠ []) :
    readLine ('{' :: front ++ p) = none := by
  unfold readLine
  rw [show lineId ('{' :: front ++ p) = none from recordCodec.read_glued r p front hp hne]
  rfl

/-- Record lines, and what they are. -/
def lineCodec : Codec Record (List Char) where
  enc r := dumps r.members
  name r := dumps r.members
  read := readLine
  first := '{'
  enc_first := head_recordLine
  enc_line := break_recordLine
  read_enc := readLine_enc
  read_prefix := readLine_prefix
  read_glued := readLine_glued

lemma linesOf_eq (rs : List Record) : Log.linesOf (C := lineCodec) rs = Log.linesOf (C := recordCodec) rs := rfl

/-- A record of an item, which was made so. -/
def OfSet (set : ItemSet) (made : Item → Members → Prop) (r : Record) : Prop :=
  ∃ item ∈ set.items, r.id = item.id.text ∧ (r.members.map fun kv => kv.1.name).Nodup ∧ made item r.members

/-- A line is such a record. -/
def Genuine (set : ItemSet) (made : Item → Members → Prop) (line : List Char) : Prop :=
  ∃ r : Record, OfSet set made r ∧ line = dumps r.members

variable [Zero F] [Add F] [LE F] [DecidableLE F] {number : List Char → Option F}

/-- **The loop appends what `triage_one` makes**, in the order of the items. -/
lemma loop_made {replies : ℕ → Reply} (n : ℕ) (spent : F) (file : List Char) (items : List Item)
    (hmade : ∀ k item ms, items[k]? = some item → triageOne leak args (replies (n + k)) item = some ms →
      made item ms) :
    ∃ rs : List (Item × Record),
      (loop leak number args replies n spent file items).file =
        file ++ Log.linesOf (C := recordCodec) (rs.map Prod.snd) ∧
      (∀ p ∈ rs, p.2.id = p.1.id.text ∧ (p.2.members.map fun kv => kv.1.name).Nodup ∧ made p.1 p.2.members) ∧
      rs.map Prod.fst <+: items := by
  induction items generalizing n spent file with
  | nil => exact ⟨[], by simp [loop, Log.linesOf], by simp, List.nil_prefix⟩
  | cons item items ih =>
    rw [loop]
    simp only
    cases hrec : triageOne leak args (replies n) item with
    | none => exact ⟨[], by simp [Log.linesOf], by simp, List.nil_prefix⟩
    | some ms =>
      obtain ⟨r, rfl, hr⟩ := triageOne_record hrec
      have hone : file ++ recordLine r.members = file ++ Log.linesOf (C := recordCodec) [r] := by
        simp [Log.linesOf, recordLine, recordCodec]
      have hnew : r.id = item.id.text ∧ (r.members.map fun kv => kv.1.name).Nodup ∧ made item r.members :=
        ⟨hr, nodup_keys hrec, hmade 0 item _ rfl hrec⟩
      have hall : ∀ p ∈ [(item, r)], p.2.id = p.1.id.text ∧ (p.2.members.map fun kv => kv.1.name).Nodup ∧
          made p.1 p.2.members := by simpa using hnew
      have hpre : [(item, r)].map Prod.fst <+: item :: items := List.cons_prefix_cons.mpr ⟨rfl, List.nil_prefix⟩
      simp only
      -- the request failed: nothing is written
      by_cases hgone : requestFailed r.members = true
      · rw [if_pos hgone]
        exact ⟨[], by simp [Log.linesOf], by simp, List.nil_prefix⟩
      rw [if_neg hgone]
      cases hcost : costOf number (entries r.members) with
      | none => exact ⟨[(item, r)], hone, hall, hpre⟩
      | some cost =>
        simp only
        -- the cap is reached, behind the record
        by_cases hcap : capReached args (spent + cost) = true
        · rw [if_pos hcap]
          exact ⟨[(item, r)], hone, hall, hpre⟩
        rw [if_neg hcap]
        -- the loop goes on: the reply to the next item is the next one
        obtain ⟨rs, hfile, hrs, hitems⟩ := ih (n + 1) (spent + cost) (file ++ recordLine r.members)
          fun k item' ms hitem' h => hmade (k + 1) item' ms hitem' (by rwa [Nat.add_right_comm] at h)
        refine ⟨(item, r) :: rs, ?_, ?_, List.cons_prefix_cons.mpr ⟨rfl, hitems⟩⟩
        · rw [hfile, hone]
          simp [Log.linesOf]
        · intro p hp
          rcases List.mem_cons.mp hp with rfl | hp
          · exact hnew
          · exact hrs p hp

/-! ### The states of the output file -/

variable {set : ItemSet} {file : List Char} {i : Run F}

/-- What an output file keeps: no item has two records, and every line that can be read is genuine. -/
structure Held (set : ItemSet) (made : Item → Members → Prop) (file : List Char) : Prop where
  ids : ∃ log : Log recordCodec, Kept set log ∧ file = log.text
  lines : ∃ log : Log lineCodec, file = log.text ∧ ∀ line ∈ log.names, Genuine set made line

omit [Zero F] [Add F] [LE F] [DecidableLE F] in
lemma held_nil : Held set made [] :=
  ⟨⟨Log.empty, ⟨by simp, by simp⟩, rfl⟩, ⟨Log.empty, rfl, by simp⟩⟩

lemma outcome_made (file : List Char) (hmade : ∀ k item ms, i.Asks set file k item →
      triageOne leak i.args (i.replies (k + 1)) item = some ms → made item ms) : ∃ rs : List Record,
      (i.outcome leak number set file).file = file ++ Log.linesOf (C := lineCodec) rs ∧
        ∀ r ∈ rs, OfSet set made r := by
  unfold Run.outcome cmdRun
  cases hdone : doneIds (splitlines file) with
  | none => exact ⟨[], by simp [Log.linesOf], by simp⟩
  | some done =>
    cases htotal : total number file with
    | none => exact ⟨[], by simp [Log.linesOf], by simp⟩
    | some spent =>
      obtain ⟨rs, hfile, hrs, hitems⟩ := loop_made 1 spent file (todo i.args.source done set.items)
        fun k item ms hitem h => hmade k item ms ⟨done, hdone, hitem⟩ (by rwa [Nat.add_comm] at h)
      refine ⟨rs.map Prod.snd, hfile, fun r hr => ?_⟩
      obtain ⟨p, hp, rfl⟩ := List.mem_map.mp hr
      exact ⟨p.1, List.mem_of_mem_filter (hitems.subset (List.mem_map_of_mem hp)), hrs p hp⟩

/-- The ids of the items of a source. -/
def idsOf (set : ItemSet) (source : Source) : List (List Char) :=
  (set.items.filter fun item => source = .all ∨ item.source.text = source.text).map fun item => item.id.text

omit [Zero F] [Add F] [LE F] [DecidableLE F] in
lemma nodup_idsOf (source : Source) : (idsOf set source).Nodup :=
  set.distinct.sublist (List.filter_sublist.map _)

omit [Zero F] [Add F] [LE F] [DecidableLE F] in
lemma ids_todo (log : Log recordCodec) (source : Source) :
    (todo source log.names set.items).map (fun item => item.id.text) =
      (idsOf set source).filter fun i => i ∉ log.names := by
  unfold todo idsOf
  rw [List.filter_map, List.filter_filter]
  congr 1
  refine List.filter_congr fun item _ => ?_
  simp

/-- **A run appends records of items that the file does not have**, of all of them if it gets to the end of its
loop. -/
lemma appends_of_kept (leak : Item → Option Leak) (number : List Char → Option F) {log : Log recordCodec}
    (h : Kept set log) (i : Run F) :
    ∃ rs : List Record,
      (i.outcome leak number set log.text).file = log.text ++ Log.linesOf (C := recordCodec) rs ∧
      rs.map Record.id <+: (idsOf set i.args.source).filter (fun i => i ∉ log.names) ∧
      ((i.outcome leak number set log.text).ending = .finished →
        rs.map Record.id = (idsOf set i.args.source).filter fun i => i ∉ log.names) := by
  unfold Run.outcome cmdRun
  rw [doneIds_text h.hashable]
  cases total number log.text with
  | none => exact ⟨[], by simp [Log.linesOf], by simp, fun h => by cases h⟩
  | some spent =>
    rw [← ids_todo]
    exact loop_appends i.replies 1 spent log.text _

lemma leaves_eq {rs : List Record} (hfile : (i.outcome leak number set file).file =
    file ++ Log.linesOf (C := recordCodec) rs) (kill : Option ℕ) :
    ∃ k, i.leaves leak number set kill file = file ++ (Log.linesOf (C := recordCodec) rs).take k := by
  unfold Run.leaves
  rw [hfile]
  cases kill with
  | none => exact ⟨(Log.linesOf (C := recordCodec) rs).length, by simp⟩
  | some k => exact ⟨k, by simp only [List.take_length_add_append]⟩

lemma leaves_of_kept {log : Log recordCodec} (h : Kept set log) (i : Run F) (kill : Option ℕ) :
    ∃ log', Kept set log' ∧ i.leaves leak number set kill log.text = log'.text := by
  obtain ⟨rs, hfile, hpre, -⟩ := appends_of_kept leak number h i
  have hmissing : ∀ id ∈ rs.map Record.id, id ∈ set.ids ∧ id ∉ log.names := by
    intro id hid
    obtain ⟨hmem, hnot⟩ := List.mem_filter.mp (hpre.subset hid)
    exact ⟨(List.filter_sublist.map _).subset hmem, by simpa using hnot⟩
  have hnodup : (log.names ++ rs.map Record.id).Nodup := by
    refine List.nodup_append.mpr ⟨h.nodup, ?_, fun a ha b hb heq => (hmissing b hb).2 (heq ▸ ha)⟩
    exact ((nodup_idsOf _).filter _).sublist hpre.sublist
  obtain ⟨k, hk⟩ := leaves_eq hfile kill
  obtain ⟨log', htext, hnames⟩ := log.sublist_names rs k
  refine ⟨log', ⟨hnodup.sublist hnames, fun id hid => ?_⟩, by rw [hk, htext]⟩
  rcases List.mem_append.mp (hnames.subset hid) with hid | hid
  · exact h.subset id hid
  · exact (hmissing id hid).1

/-- **A run keeps the output file**, wherever it is killed. -/
lemma Held.run (h : Held set made file) (hmade : ∀ k item ms, i.Asks set file k item →
      triageOne leak i.args (i.replies (k + 1)) item = some ms → made item ms) (kill : Option ℕ) :
    Held set made (i.leaves leak number set kill file) := by
  obtain ⟨log, hkept, htext⟩ := h.ids
  obtain ⟨log', htext', hlines⟩ := h.lines
  constructor
  · obtain ⟨next, hnext, hleaves⟩ := leaves_of_kept hkept i kill
    exact ⟨next, hnext, by rw [htext, hleaves]⟩
  · obtain ⟨rs, hfile, hrs⟩ := outcome_made file hmade
    obtain ⟨k, hk⟩ := leaves_eq hfile kill
    obtain ⟨next, hnext, hnames⟩ := log'.sublist_names rs k
    refine ⟨next, by rw [hk, hnext, htext']; rfl, fun line hline => ?_⟩
    rcases List.mem_append.mp (hnames.subset hline) with hold | hnew
    · exact hlines line hold
    · obtain ⟨r, hr, rfl⟩ := List.mem_map.mp hnew
      exact ⟨r, hrs r hr, rfl⟩

/-! ### What the removal leaves -/

/-- The ids of the records that are removed. -/
def lost (rs : List Record) : List (List Char) := (rs.filter fun r => !validRow (entries r.members)).map Record.id

/-- The records that stay. -/
def kept (rs : List Record) : List Record := rs.filter fun r => r.id ∉ lost rs

omit [Zero F] [Add F] [LE F] [DecidableLE F] in
/-- A line that can be read is genuine. -/
lemma Held.genuine (h : Held set made file) {line : List Char} (hline : line ∈ splitlines file)
    (hid : lineId line ≠ none) : Genuine set made line := by
  obtain ⟨log, rfl, hlines⟩ := h.lines
  refine hlines line ?_
  rw [← log.filterMap_read, List.mem_filterMap]
  obtain ⟨id, hid⟩ := Option.ne_none_iff_exists'.mp hid
  exact ⟨line, hline, by simp [lineCodec, readLine, hid]⟩

omit [Zero F] [Add F] [LE F] [DecidableLE F] in
lemma Held.records (h : Held set made file) (hread : ∀ line ∈ splitlines file, lineId line ≠ none) :
    ∃ rs : List Record, splitlines file = rs.map (fun r => dumps r.members) ∧ ∀ r ∈ rs, OfSet set made r := by
  have hchoose : ∀ lines : List (List Char), (∀ line ∈ lines, Genuine set made line) →
      ∃ rs : List Record, lines = rs.map (fun r => dumps r.members) ∧ ∀ r ∈ rs, OfSet set made r := by
    intro lines
    induction lines with
    | nil => exact fun _ => ⟨[], rfl, by simp⟩
    | cons line lines ih =>
      intro hlines
      obtain ⟨r, hof, rfl⟩ := hlines line List.mem_cons_self
      obtain ⟨rs, hrs, hall⟩ := ih fun line hline => hlines line (List.mem_cons_of_mem _ hline)
      refine ⟨r :: rs, by rw [hrs, List.map_cons], fun r' hr' => ?_⟩
      rcases List.mem_cons.mp hr' with rfl | hr'
      · exact hof
      · exact hall r' hr'
  exact hchoose _ fun line hline => h.genuine hline (hread line hline)

omit [Zero F] [Add F] [LE F] [DecidableLE F] in
lemma rowOf_dumps {r : Record} (h : OfSet set made r) :
    rowOf (dumps r.members) = some (r.id, entries r.members) := by
  obtain ⟨item, -, hid, -⟩ := h
  have hashable : unhashable r.id = false := by
    unfold unhashable
    rw [hid, item.id_string]
    rfl
  unfold rowOf
  rw [loads_dumps r.ne_nil]
  simp only
  rw [r.get_id, Option.bind_some, hashable]
  rfl

omit [Zero F] [Add F] [LE F] [DecidableLE F] in
lemma fileLines_held (h : Held set made file) : fileLines file = splitlines file := by
  obtain ⟨log, -, rfl⟩ := h.ids
  exact fileLines_eq (breaks_text log)

omit [Zero F] [Add F] [LE F] [DecidableLE F] in
lemma rows_of_records {rs : List Record} (hlines : splitlines file = rs.map fun r => dumps r.members)
    (hrs : ∀ r ∈ rs, OfSet set made r) :
    (splitlines file).mapM rowOf = some (rs.map fun r => (r.id, entries r.members)) := by
  rw [hlines, List.mapM_map]
  exact mapM_of_forall fun r hr => rowOf_dumps (hrs r hr)

omit [Zero F] [Add F] [LE F] [DecidableLE F] in
/-- **The removal**, where every line can be read. -/
lemma prune_records (h : Held set made file) {rs : List Record}
    (hlines : splitlines file = rs.map fun r => dumps r.members) (hrs : ∀ r ∈ rs, OfSet set made r) :
    prune file = some (Log.linesOf (C := recordCodec) (kept rs)) := by
  have hfailed : failedIds (rs.map fun r => (r.id, entries r.members)) = lost rs := by
    unfold failedIds lost
    rw [List.filter_map, List.map_map]
    rfl
  unfold prune
  rw [fileLines_held h, rows_of_records hlines hrs, Option.map_some, hfailed, List.filter_map, List.flatMap_map]
  refine congrArg some (List.flatMap_congr fun r hr => ?_)
  obtain ⟨item, -, -, hnodup, -⟩ := hrs r (List.mem_of_mem_filter hr)
  rw [dumpRow_entries hnodup]
  rfl

omit [Zero F] [Add F] [LE F] [DecidableLE F] in
lemma rowOf_eq_none {line : List Char} (h : lineId line = none) : rowOf line = none := by
  unfold lineId at h
  unfold rowOf
  cases hload : loads line with
  | failed => rfl
  | scalar => rfl
  | object ms =>
    rw [hload] at h
    have hid : get ms "id".toList = none := h
    simp only
    rw [hid]
    rfl

omit [Zero F] [Add F] [LE F] [DecidableLE F] in
/-- **The removal raises** exactly if some line cannot be read. -/
lemma prune_eq_none_iff (h : Held set made file) :
    prune file = none ↔ ∃ line ∈ splitlines file, lineId line = none := by
  constructor
  · intro hnone
    by_contra hall
    push Not at hall
    obtain ⟨rs, hlines, hrs⟩ := h.records hall
    rw [prune_records h hlines hrs] at hnone
    cases hnone
  · rintro ⟨line, hline, hid⟩
    unfold prune
    rw [fileLines_held h, mapM_eq_none_iff.mpr ⟨line, hline, rowOf_eq_none hid⟩]
    rfl

omit [Zero F] [Add F] [LE F] [DecidableLE F] in
lemma ids_of_records (h : Held set made file) {rs : List Record}
    (hlines : splitlines file = rs.map fun r => dumps r.members) :
    (rs.map Record.id).Nodup ∧ ∀ id ∈ rs.map Record.id, id ∈ set.ids := by
  obtain ⟨log, hkept, rfl⟩ := h.ids
  have hnames : log.names = rs.map Record.id := by
    rw [← log.filterMap_read, hlines, List.filterMap_map]
    exact List.filterMap_eq_map_iff_forall_eq_some.mpr fun r _ => recordCodec.read_enc r
  rw [← hnames]
  exact ⟨hkept.nodup, hkept.subset⟩

omit [Zero F] [Add F] [LE F] [DecidableLE F] in
/-- Some records of a file, cut off anywhere. -/
lemma Held.part (h : Held set made file) {rs few : List Record}
    (hlines : splitlines file = rs.map fun r => dumps r.members) (hrs : ∀ r ∈ rs, OfSet set made r)
    (hfew : few.Sublist rs) (k : ℕ) : Held set made ((Log.linesOf (C := recordCodec) few).take k) := by
  obtain ⟨hnodup, hids⟩ := ids_of_records h hlines
  constructor
  · obtain ⟨log, htext, hnames⟩ := (Log.empty : Log recordCodec).sublist_names few k
    rw [Log.names_empty, List.nil_append] at hnames
    have hsub := hnames.trans (hfew.map Record.id)
    exact ⟨log, ⟨hnodup.sublist hsub, fun id hid => hids id (hsub.subset hid)⟩, by rw [htext]; rfl⟩
  · obtain ⟨log, htext, hnames⟩ := (Log.empty : Log lineCodec).sublist_names few k
    rw [Log.names_empty, List.nil_append] at hnames
    refine ⟨log, by rw [htext]; rfl, fun line hline => ?_⟩
    obtain ⟨r, hr, rfl⟩ := List.mem_map.mp (hnames.subset hline)
    exact ⟨r, hrs r (hfew.subset hr), rfl⟩

omit [Zero F] [Add F] [LE F] [DecidableLE F] in
/-- **A removal keeps the output file**, wherever it is killed. -/
lemma Held.prune (h : Held set made file) {new : List Char} (hprune : prune file = some new) (k : ℕ) :
    Held set made (new.take k) := by
  have hread : ∀ line ∈ splitlines file, lineId line ≠ none := by
    intro line hline hid
    rw [(prune_eq_none_iff h).mpr ⟨line, hline, hid⟩] at hprune
    cases hprune
  obtain ⟨rs, hlines, hrs⟩ := h.records hread
  rw [prune_records h hlines hrs] at hprune
  obtain rfl := Option.some.inj hprune
  exact h.part hlines hrs List.filter_sublist k

/-! ### Every state -/

/-- **A step keeps the output file.** -/
lemma Held.step (h : Held set made file) {step : Step F} (hmade : ∀ i kill, step = .run i kill →
    ∀ k item ms, i.Asks set file k item → triageOne leak i.args (i.replies (k + 1)) item = some ms →
      made item ms) :
    Held set made (step.leaves leak number set file) := by
  cases step with
  | run i kill => exact h.run (hmade i kill rfl) kill
  | prune kill =>
    cases hprune : Retry.prune file with
    | none =>
      simp only [Step.leaves, hprune]
      exact h
    | some new =>
      cases kill with
      | none =>
        simp only [Step.leaves, hprune]
        simpa using h.prune hprune new.length
      | some k =>
        simp only [Step.leaves, hprune]
        exact h.prune hprune k

/-- **All steps keep it.** -/
lemma held_fileOf {steps : List (Step F)} (hmade : ∀ before i kill after, steps = before ++ Step.run i kill :: after →
    ∀ k item ms, i.Asks set (fileOf leak number set before) k item →
      triageOne leak i.args (i.replies (k + 1)) item = some ms → made item ms) :
    Held set made (fileOf leak number set steps) := by
  induction steps using List.reverseRecOn with
  | nil => exact held_nil
  | append_singleton steps step ih =>
    have hfile : fileOf leak number set (steps ++ [step]) =
        step.leaves leak number set (fileOf leak number set steps) := List.foldl_concat _ _ _ _
    have hearlier : Held set made (fileOf leak number set steps) := by
      refine ih fun before i kill after heq => hmade before i kill (after ++ [step]) ?_
      rw [heq, List.append_assoc, List.cons_append]
    rw [hfile]
    exact hearlier.step fun i kill heq => hmade steps i kill [] (by rw [heq])

omit [Zero F] [Add F] [LE F] [DecidableLE F] in
lemma Held.count_le (h : Held set made file) (item : Item) : recordCount file item ≤ 1 := by
  obtain ⟨log, hkept, rfl⟩ := h.ids
  rw [recordCount_text]
  exact List.nodup_iff_count_le_one.mp hkept.nodup _

/-- **The lines of an output file**, in every state that runs and removals leave, wherever they are killed: no
item has two records that can be read, and every line that can be read is, character by character, the record
that `triage_one` made of an item in one of the runs, from the reply to the request for this item. -/
theorem records_of_steps (leak : Item → Option Leak) (number : List Char → Option F) (set : ItemSet)
    (steps : List (Step F)) :
    (∀ item ∈ set.items, recordCount (fileOf leak number set steps) item ≤ 1) ∧
      ∀ line ∈ splitlines (fileOf leak number set steps), ∀ id, lineId line = some id →
        ∃ item ∈ set.items, id = item.id.text ∧ ∃ before i kill after k ms,
          steps = before ++ Step.run i kill :: after ∧ i.Asks set (fileOf leak number set before) k item ∧
          triageOne leak i.args (i.replies (k + 1)) item = some ms ∧ line = dumps ms := by
  have hheld : Held set (fun item ms => ∃ before i kill after k, steps = before ++ Step.run i kill :: after ∧
      i.Asks set (fileOf leak number set before) k item ∧
      triageOne leak i.args (i.replies (k + 1)) item = some ms) (fileOf leak number set steps) :=
    held_fileOf fun before i kill after heq k item ms hasks h => ⟨before, i, kill, after, k, heq, hasks, h⟩
  refine ⟨fun item _ => hheld.count_le item, fun line hline id hid => ?_⟩
  obtain ⟨r, ⟨item, hitem, hr, -, before, i, kill, after, k, heq, hasks, hmade⟩, rfl⟩ :=
    hheld.genuine hline (by rw [hid]; exact Option.some_ne_none id)
  rw [show lineId (dumps r.members) = some r.id from recordCodec.read_enc r] at hid
  exact ⟨item, hitem, by rw [← hr]; exact (Option.some.inj hid).symm, before, i, kill, after, k, r.members, heq,
    hasks, hmade, rfl⟩

/-! ### The script -/

/-- The record on a line has an answer. -/
def answered (line : List Char) : Bool :=
  match loads line with
  | .object ms => validRow ms
  | _ => false

omit [Zero F] [Add F] [LE F] [DecidableLE F] in
lemma answered_dumps (r : Record) : answered (dumps r.members) = validRow (entries r.members) := by
  unfold answered
  rw [loads_dumps r.ne_nil]

/-- A log of records, of which none broke off. -/
def wholeLog (rs : List Record) : Log recordCodec := ⟨rs.map Entry.whole, none⟩

omit [Zero F] [Add F] [LE F] [DecidableLE F] in
lemma text_wholeLog (rs : List Record) : (wholeLog rs).text = Log.linesOf (C := recordCodec) rs := by
  simp [wholeLog, Log.text, Log.linesOf, Entry.whole, List.flatMap_map]

omit [Zero F] [Add F] [LE F] [DecidableLE F] in
lemma splitlines_linesOf (rs : List Record) :
    splitlines (Log.linesOf (C := recordCodec) rs) = rs.map fun r => dumps r.members := by
  rw [← text_wholeLog, Log.splitlines_text, wholeLog, Option.toList_none, List.append_nil, List.map_map]
  rfl

omit [Zero F] [Add F] [LE F] [DecidableLE F] in
/-- **The records that stay** are those with an answer. -/
lemma mem_kept {rs : List Record} (hnodup : (rs.map Record.id).Nodup) {r : Record} :
    r ∈ kept rs ↔ r ∈ rs ∧ validRow (entries r.members) = true := by
  unfold kept
  rw [List.mem_filter, decide_eq_true_eq]
  refine and_congr_right fun hr => ?_
  constructor
  · intro hnot
    by_contra hinvalid
    exact hnot (List.mem_map_of_mem (List.mem_filter.mpr ⟨hr, by simpa using hinvalid⟩))
  · intro hvalid hlost
    obtain ⟨r', hr', hid⟩ := List.mem_map.mp hlost
    obtain ⟨hmem, hinvalid⟩ := List.mem_filter.mp hr'
    rw [List.inj_on_of_nodup_map hnodup hmem hr hid, hvalid] at hinvalid
    cases hinvalid

/-- A run of the script where some line cannot be read. -/
lemma runClaude_stops {first second : Run F}
    (hprune : Retry.prune (first.outcome leak number set file).file = none) :
    runScript (fun _ => Cmd.set id) (runClaude leak number set first second) file =
      (1, (first.outcome leak number set file).file) := by
  unfold runScript runClaude
  simp only [Cmd.all, run_seq, runCmd, run_recorded, andThen_next, pruneCmd, run_simple, id_eq, ite_self, hprune,
    one_ne_zero, if_false, andThen_exited, run_set]

lemma runClaude_ends {first second : Run F} {new : List Char}
    (hprune : Retry.prune (first.outcome leak number set file).file = some new) :
    runScript (fun _ => Cmd.set id) (runClaude leak number set first second) file =
      (status (second.outcome leak number set new).ending, (second.outcome leak number set new).file) := by
  unfold runScript runClaude
  simp only [Cmd.all, run_seq, runCmd, run_recorded, andThen_next, pruneCmd, run_simple, id_eq, ite_self, hprune,
    if_true, run_set]
  split_ifs with hzero
  · simp [hzero]
  · rfl

omit [Zero F] [Add F] [LE F] [DecidableLE F] in
lemma names_wholeLog (rs : List Record) : (wholeLog rs).names = rs.map Record.id := by
  rw [← Log.filterMap_read, text_wholeLog, splitlines_linesOf, List.filterMap_map]
  exact List.filterMap_eq_map_iff_forall_eq_some.mpr fun r _ => recordCodec.read_enc r

/-- **A run that finishes behind whole lines** leaves one record for each item of its source. -/
lemma finishes_of_kept {rs : List Record} (h : Kept set (wholeLog rs)) (i : Run F)
    (hend : (i.outcome leak number set (wholeLog rs).text).ending = .finished) :
    ∃ made : List Record, (i.outcome leak number set (wholeLog rs).text).file =
        Log.linesOf (C := recordCodec) (rs ++ made) ∧
      (∀ r ∈ made, ∃ item ∈ set.items, ∃ k, i.Asks set (wholeLog rs).text k item ∧
        triageOne leak i.args (i.replies (k + 1)) item = some r.members) ∧
      ∀ item ∈ set.items, i.args.source = .all ∨ item.source.text = i.args.source.text →
        recordCount (i.outcome leak number set (wholeLog rs).text).file item = 1 := by
  have hmade : ∃ made : List Record,
      (i.outcome leak number set (wholeLog rs).text).file =
        (wholeLog rs).text ++ Log.linesOf (C := lineCodec) made ∧
      ∀ r ∈ made, OfSet set (fun item ms => ∃ k, i.Asks set (wholeLog rs).text k item ∧
        triageOne leak i.args (i.replies (k + 1)) item = some ms) r :=
    outcome_made _ fun k item ms hasks h => ⟨k, hasks, h⟩
  obtain ⟨made, hfile, hmade⟩ := hmade
  obtain ⟨rs', hfile', -, hall⟩ := appends_of_kept leak number h i
  refine ⟨made, ?_, fun r hr => ?_, fun item hitem hsource => ?_⟩
  · rw [hfile, text_wholeLog, linesOf_eq]
    simp [Log.linesOf]
  · obtain ⟨item, hitem, -, -, k, htriage⟩ := hmade r hr
    exact ⟨item, hitem, k, htriage⟩
  · have hone : ∀ id ∈ idsOf set i.args.source, ((wholeLog rs).addAll rs').names.count id = 1 :=
      (Log.once_iff (nodup_idsOf _) h.nodup (hall hend)).mpr (.inl rfl)
    rw [hfile', ← Log.text_addAll, recordCount_text]
    exact hone _ (List.mem_map_of_mem (List.mem_filter.mpr ⟨hitem, by simpa using hsource⟩))

lemma status_eq_zero {ending : Ending} : status ending = 0 ↔ ending = .finished := by
  cases ending <;> simp [status]

/-- **The script**: it fails behind the first run, which it leaves as it is, if some line of what this run left
cannot be read. If it gets to its end without an error, each item of the source has one record; each record that
had an answer behind the first run is still there, and every other one the second run made, from the reply to its
request for the item. -/
theorem claude_once (leak : Item → Option Leak) (number : List Char → Option F) (set : ItemSet)
    (steps : List (Step F)) (first second : Run F) :
    let file := (first.outcome leak number set (fileOf leak number set steps)).file
    let result := runScript (fun _ => Cmd.set id) (runClaude leak number set first second)
      (fileOf leak number set steps)
    ((∃ line ∈ splitlines file, lineId line = none) → result = (1, file)) ∧
      (result.1 = 0 →
        (∀ item ∈ set.items, second.args.source = .all ∨ item.source.text = second.args.source.text →
          recordCount result.2 item = 1) ∧
        (∀ line ∈ splitlines file, answered line = true → line ∈ splitlines result.2) ∧
        ∃ left, Retry.prune file = some left ∧
          ∀ line ∈ splitlines result.2, line ∈ splitlines file ∧ answered line = true ∨
            ∃ item ∈ set.items, ∃ k ms, second.Asks set left k item ∧
              triageOne leak second.args (second.replies (k + 1)) item = some ms ∧ line = dumps ms) := by
  intro file result
  have hheld : Held set (fun _ _ => True) file :=
    (held_fileOf fun _ _ _ _ _ _ _ _ _ _ => trivial).run (fun _ _ _ _ _ => trivial) none
  constructor
  · exact fun hline => runClaude_stops ((prune_eq_none_iff hheld).mpr hline)
  intro hcode
  -- the removal did not raise, so the file is the lines of some records
  have hread : ∀ line ∈ splitlines file, lineId line ≠ none := by
    intro line hline hid
    have hstops : result = (1, file) := runClaude_stops ((prune_eq_none_iff hheld).mpr ⟨line, hline, hid⟩)
    rw [hstops] at hcode
    cases hcode
  obtain ⟨rs, hlines, hrs⟩ := hheld.records hread
  obtain ⟨hnodup, hids⟩ := ids_of_records hheld hlines
  have hprune : Retry.prune file = some (wholeLog (kept rs)).text := by
    rw [text_wholeLog]
    exact prune_records hheld hlines hrs
  have hend : result = (status (second.outcome leak number set (wholeLog (kept rs)).text).ending,
      (second.outcome leak number set (wholeLog (kept rs)).text).file) := runClaude_ends hprune
  -- what it leaves is a log of whole lines, and the second run finishes behind it
  have hsub : (kept rs).Sublist rs := List.filter_sublist
  have hkept : Kept set (wholeLog (kept rs)) :=
    ⟨by rw [names_wholeLog]; exact hnodup.sublist (hsub.map _),
      fun id hid => hids id ((hsub.map _).subset (by rwa [names_wholeLog] at hid))⟩
  have hfinished : (second.outcome leak number set (wholeLog (kept rs)).text).ending = .finished :=
    status_eq_zero.mp (by rwa [hend] at hcode)
  obtain ⟨made, hfile, hmade, hcount⟩ := finishes_of_kept hkept second hfinished
  have hfile' : result.2 = Log.linesOf (C := recordCodec) (kept rs ++ made) := by rw [hend, hfile]
  rw [hfile', splitlines_linesOf, hlines]
  refine ⟨fun item hitem hsource => ?_, fun line hline hvalid => ?_, _, hprune, fun line hline => ?_⟩
  · rw [← hfile]
    exact hcount item hitem hsource
  -- a record with an answer is not removed, and one that stays has an answer
  · obtain ⟨r, hr, rfl⟩ := List.mem_map.mp hline
    rw [answered_dumps] at hvalid
    exact List.mem_map_of_mem (List.mem_append_left _ ((mem_kept hnodup).mpr ⟨hr, hvalid⟩))
  · obtain ⟨r, hr, rfl⟩ := List.mem_map.mp hline
    rcases List.mem_append.mp hr with hr | hr
    · obtain ⟨hmem, hvalid⟩ := (mem_kept hnodup).mp hr
      exact .inl ⟨List.mem_map_of_mem hmem, by rw [answered_dumps, hvalid]⟩
    · obtain ⟨item, hitem, k, hasks, htriage⟩ := hmade r hr
      exact .inr ⟨item, hitem, k, r.members, hasks, htriage, rfl⟩

end

/-- A model that never answers. -/
def silent : Run ℕ where
  args := plainArgs
  replies _ := .failed plainLatency busy

/-- An answer that agrees with the label. -/
def plainAnswer : Answer := ⟨plainItem.label, constant "1.0", constant "\"CWE-121\"", constant "\"r\""⟩

/-- A model that always answers. -/
def answering : Run ℕ where
  args := plainArgs
  replies _ := .answered plainLatency (some plainAnswer) true
    ⟨null, null, null, null, null, null, null⟩

example : (runScript (fun _ => Cmd.set id) (runClaude (fun _ => none) (fun _ => none) oneItem silent answering)
    []).1 = 0 := by decide +kernel

end CSecureBuild.Harness.Retry
