import CSecureBuild.Harness.RunEval
import CSecureBuild.Lib.LineLog

/-!
What reruns of `cmd_run` make of one output file, when any of them can be killed while it writes. The
file is a log of record lines (`recordCodec`), whatever was cut off; `once_iff_ended` says when the last
run leaves one record for each item.
-/

namespace CSecureBuild.Harness.Resume

open CSecureBuild.PyLib.Json CSecureBuild.PyLib.Text CSecureBuild.Lib.LineLog
open CSecureBuild.Harness.RunEval

/-! ### Records as lines of a log -/

/-- A record that tells the id of its item. -/
structure Record where
  members : Members
  id : List Char
  get_id : get (entries members) "id".toList = some id

lemma Record.ne_nil (r : Record) : r.members ≠ [] := by
  intro h
  have := r.get_id
  rw [h] at this
  cases this

/-- The id that `json.loads(line)["id"]` gives, if it gives one. -/
def lineId (line : List Char) : Option (List Char) :=
  match loads line with
  | .object members => get members "id".toList
  | _ => none

lemma lineId_of_failed {line : List Char} (h : loads line = .failed) : lineId line = none := by
  unfold lineId
  rw [h]

/-- Record lines, and the ids that `cmd_run` reads off lines. -/
def recordCodec : Codec Record (List Char) where
  enc r := dumps r.members
  name := Record.id
  read := lineId
  first := '{'
  enc_first _ := rfl
  enc_line r c hc := isBreak_of_printable (printable_dumps r.members c hc)
  read_enc r := by
    unfold lineId
    rw [loads_dumps r.ne_nil]
    exact r.get_id
  read_prefix r _ hp hne := lineId_of_failed <| loads_prefix hp hne r.ne_nil
  read_glued r _ front hp hne := lineId_of_failed (loads_glued front r.ne_nil hp hne)

lemma loads_ne_scalar {line : List Char} (h : line.head? = some '{') : loads line ≠ .scalar := by
  obtain ⟨c, line, rfl⟩ := List.exists_cons_of_ne_nil (show line ≠ [] by rintro rfl; cases h)
  obtain rfl : c = '{' := Option.some.inj h
  have hbrace : (('{' :: line).dropWhile isSpace).head? = some '{' := rfl
  unfold loads
  rw [if_pos hbrace]
  split <;> exact fun h => by cases h

/-- The id on a line of a log. -/
abbrev entryId (e : Entry recordCodec) : Option (List Char) := lineId e.text

lemma doneIds_eq {entries : List (Entry recordCodec)}
    (h : ∀ i ∈ entries.filterMap entryId, unhashable i = false) :
    doneIds (entries.map Entry.text) = some (entries.filterMap entryId) := by
  induction entries with
  | nil => rfl
  | cons e entries ih =>
    rw [List.map_cons, doneIds]
    have hscalar := loads_ne_scalar e.begun
    cases hload : loads e.text with
    | scalar => exact absurd hload hscalar
    | failed =>
      have hnone : entryId e = none := lineId_of_failed hload
      rw [List.filterMap_cons_none hnone] at h ⊢
      exact ih h
    | object members =>
      have hid : entryId e = get members "id".toList := by
        unfold entryId lineId
        rw [hload]
      simp only
      cases hget : get members "id".toList with
      | none =>
        rw [List.filterMap_cons_none (hid.trans hget)] at h ⊢
        exact ih h
      | some id =>
        rw [List.filterMap_cons_some (hid.trans hget)] at h ⊢
        simp only [h id List.mem_cons_self, Bool.false_eq_true, if_false]
        rw [ih fun i hi => h i (List.mem_cons_of_mem id hi)]
        rfl

/-- **`cmd_run` reads from a log which records it has.** -/
theorem doneIds_text {log : Log recordCodec} (h : ∀ i ∈ log.names, unhashable i = false) :
    doneIds (splitlines log.text) = some log.names := by
  rw [Log.splitlines_text]
  exact doneIds_eq h

/-! ### What an invocation appends -/

lemma reply_ne_id {reply : Reply} {fields : Members} (h : reply.members = some fields) :
    ∀ kv ∈ fields, kv.1.name ≠ "id".toList := by
  cases reply with
  | raises => cases h
  | failed latency error =>
    cases h
    simp [key]
  | answered latency answer direct usage =>
    cases h
    cases answer <;> simp [key, answerMembers]
  | claude latency info answer =>
    cases h
    cases info with
    | failed error => cases answer <;> simp [key, answerMembers, Info.members, Info.hasError]
    | reported p c u f error =>
      cases answer <;> cases error <;> simp [key, answerMembers, Info.members, Info.hasError]

variable {F : Type} {leak : Item → Option Leak} {args : Args F}

/-- **`triage_one` makes a record of its item.** -/
theorem triageOne_record {reply : Reply} {item : Item} {ms : Members}
    (h : triageOne leak args reply item = some ms) :
    ∃ r : Record, r.members = ms ∧ r.id = item.id.text := by
  have hhead : ∀ fields : Members, (∀ kv ∈ fields, kv.1.name ≠ "id".toList) →
      get (entries (header args item ++ fields)) "id".toList = some item.id.text := by
    intro fields hf
    have hlabels : ∀ kv ∈ (header args item).tail, kv.1.name ≠ "id".toList := by
      simp [header, key]
    refine get_head (k := key "id") item.id ?_
    intro kv hkv
    exact (List.mem_append.mp hkv).elim (hlabels kv) (hf kv)
  unfold triageOne at h
  split at h
  · cases h
    exact ⟨⟨_, _, hhead _ (by simp [key])⟩, rfl, rfl⟩
  · obtain ⟨fields, hfields, rfl⟩ := Option.map_eq_some_iff.mp h
    exact ⟨⟨_, _, hhead fields (reply_ne_id hfields)⟩, rfl, rfl⟩

variable [Zero F] [Add F] [LE F] [DecidableLE F] {number : List Char → Option F}

/-- **The loop appends record lines**, for the first of its items, and for all if it gets to its end. -/
theorem loop_appends (replies : ℕ → Reply) (n : ℕ) (spent : F) (file : List Char)
    (items : List Item) :
    ∃ rs : List Record,
      (loop leak number args replies n spent file items).file =
        file ++ Log.linesOf (C := recordCodec) rs ∧
      rs.map Record.id <+: items.map (fun item => item.id.text) ∧
      ((loop leak number args replies n spent file items).ending = .finished →
        rs.map Record.id = items.map fun item => item.id.text) := by
  induction items generalizing n spent file with
  | nil => exact ⟨[], by simp [loop, Log.linesOf], by simp, fun _ => rfl⟩
  | cons item items ih =>
    rw [loop]
    simp only
    cases hrec : triageOne leak args (replies n) item with
    | none => exact ⟨[], by simp [Log.linesOf], by simp, fun h => by cases h⟩
    | some ms =>
      obtain ⟨r, rfl, hr⟩ := triageOne_record hrec
      have hone : file ++ recordLine r.members =
          file ++ Log.linesOf (C := recordCodec) [r] := by
        simp [Log.linesOf, recordLine, recordCodec]
      have hpre : [r].map Record.id <+: (item :: items).map (fun item => item.id.text) := by
        rw [List.map_singleton, List.map_cons, hr]
        exact List.cons_prefix_cons.mpr ⟨rfl, List.nil_prefix⟩
      simp only
      -- the request failed: nothing is written
      by_cases hgone : requestFailed r.members = true
      · rw [if_pos hgone]
        exact ⟨[], by simp [Log.linesOf], by simp, fun h => by cases h⟩
      rw [if_neg hgone]
      cases hcost : costOf number (entries r.members) with
      -- the cost cannot be read, behind the record
      | none => exact ⟨[r], hone, hpre, fun h => by cases h⟩
      | some cost =>
        simp only
        -- the cap is reached, behind the record
        by_cases hcap : capReached args (spent + cost) = true
        · rw [if_pos hcap]
          exact ⟨[r], hone, hpre, fun h => by cases h⟩
        rw [if_neg hcap]
        obtain ⟨rs, hfile, hids, hend⟩ := ih (n + 1) (spent + cost) (file ++ recordLine r.members)
        refine ⟨r :: rs, ?_, ?_, ?_⟩
        · rw [hfile, hone]
          simp [Log.linesOf]
        · rw [List.map_cons, List.map_cons, hr]
          exact List.cons_prefix_cons.mpr ⟨rfl, hids⟩
        · intro h
          rw [List.map_cons, List.map_cons, hr, hend h]

/-! ### Reruns -/

/-- Items with distinct ids. -/
structure ItemSet where
  items : List Item
  distinct : (items.map fun item => item.id.text).Nodup

/-- The ids of the items. -/
def ItemSet.ids (set : ItemSet) : List (List Char) := set.items.map fun item => item.id.text

/-- An invocation of `cmd_run` on all items. -/
structure Invocation (F : Type) where
  args : Args F
  all : args.source = .all
  replies : ℕ → Reply

/-- What an invocation comes to when nothing kills it. -/
def Invocation.outcome (leak : Item → Option Leak) (number : List Char → Option F) (set : ItemSet)
    (i : Invocation F) (file : List Char) : Outcome :=
  cmdRun leak number i.args set.items i.replies file

/-- The output file after an invocation, which was killed when it had written a number of characters, or
was not. -/
def Invocation.leaves (leak : Item → Option Leak) (number : List Char → Option F) (set : ItemSet)
    (i : Invocation F) (kill : Option ℕ) (file : List Char) : List Char :=
  match kill with
  | none => (i.outcome leak number set file).file
  | some k => (i.outcome leak number set file).file.take (file.length + k)

/-- The output file after some invocations, from none. -/
def fileAfter (leak : Item → Option Leak) (number : List Char → Option F) (set : ItemSet)
    (earlier : List (Invocation F × Option ℕ)) : List Char :=
  earlier.foldl (fun file i => i.1.leaves leak number set i.2 file) []

/-- The lines of a file that are readable records of an item. -/
def recordCount (file : List Char) (item : Item) : ℕ :=
  (splitlines file).countP fun line => lineId line == some item.id.text

lemma recordCount_text (log : Log recordCodec) (item : Item) :
    recordCount log.text item = log.names.count item.id.text := by
  rw [← log.filterMap_read, List.count_filterMap]
  rfl

/-- What `cmd_run` keeps of an output file: it is a log of the items, and no item is in it twice. -/
structure Kept (set : ItemSet) (log : Log recordCodec) : Prop where
  nodup : log.names.Nodup
  subset : ∀ i ∈ log.names, i ∈ set.ids

variable {set : ItemSet} {log : Log recordCodec} {i : Invocation F}

lemma unhashable_id (item : Item) : unhashable item.id.text = false := by
  unfold unhashable
  rw [item.id_string]
  rfl

lemma Kept.hashable (h : Kept set log) : ∀ i ∈ log.names, unhashable i = false := by
  intro i hi
  obtain ⟨item, -, rfl⟩ := List.mem_map.mp (h.subset i hi)
  exact unhashable_id item

lemma todo_ids (log : Log recordCodec) :
    (todo .all log.names set.items).map (fun item => item.id.text) =
      set.ids.filter fun i => i ∉ log.names := by
  unfold todo ItemSet.ids
  rw [List.filter_map]
  congr 1
  refine List.filter_congr fun item _ => ?_
  simp

variable (leak number) in
/-- **An invocation appends records of items that the file does not have**, of all of them if it gets to
the end of its loop. -/
theorem Kept.appends (h : Kept set log) (i : Invocation F) :
    ∃ rs : List Record,
      (i.outcome leak number set log.text).file = log.text ++ Log.linesOf (C := recordCodec) rs ∧
      rs.map Record.id <+: set.ids.filter (fun i => i ∉ log.names) ∧
      ((i.outcome leak number set log.text).ending = .finished →
        rs.map Record.id = set.ids.filter fun i => i ∉ log.names) := by
  unfold Invocation.outcome cmdRun
  rw [doneIds_text h.hashable]
  cases total number log.text with
  | none => exact ⟨[], by simp [Log.linesOf], by simp, fun h => by cases h⟩
  | some spent =>
    rw [← todo_ids, ← i.all]
    exact loop_appends i.replies 1 spent log.text _

/-- **Whatever is left of an invocation is a log again.** -/
theorem Kept.leaves (h : Kept set log) (i : Invocation F) (kill : Option ℕ) :
    ∃ log', Kept set log' ∧ i.leaves leak number set kill log.text = log'.text := by
  obtain ⟨rs, hfile, hpre, -⟩ := h.appends leak number i
  have hmissing : ∀ id ∈ rs.map Record.id, id ∈ set.ids ∧ id ∉ log.names := by
    intro id hid
    simpa using hpre.subset hid
  have hnodup : (log.names ++ rs.map Record.id).Nodup := by
    refine List.nodup_append.mpr ⟨h.nodup, ?_, fun a ha b hb heq => (hmissing b hb).2 (heq ▸ ha)⟩
    exact (set.distinct.filter _).sublist hpre.sublist
  obtain ⟨k, hk⟩ : ∃ k, i.leaves leak number set kill log.text =
      log.text ++ (Log.linesOf (C := recordCodec) rs).take k := by
    unfold Invocation.leaves
    rw [hfile]
    cases kill with
    | none => exact ⟨(Log.linesOf (C := recordCodec) rs).length, by simp⟩
    | some k => exact ⟨k, by simp only [List.take_length_add_append]⟩
  obtain ⟨log', htext, hnames⟩ := log.sublist_names rs k
  refine ⟨log', ⟨hnodup.sublist hnames, ?_⟩, by rw [hk, htext]⟩
  intro id hid
  rcases List.mem_append.mp (hnames.subset hid) with hid | hid
  · exact h.subset id hid
  · exact (hmissing id hid).1

/-- **The output file is a log in every state.** -/
theorem kept_fileAfter (leak : Item → Option Leak) (number : List Char → Option F) (set : ItemSet)
    (earlier : List (Invocation F × Option ℕ)) :
    ∃ log, Kept set log ∧ fileAfter leak number set earlier = log.text := by
  induction earlier using List.reverseRecOn with
  | nil => exact ⟨Log.empty, ⟨by simp, by simp⟩, rfl⟩
  | append_singleton earlier i ih =>
    obtain ⟨log, hlog, htext⟩ := ih
    unfold fileAfter at htext ⊢
    rw [List.foldl_concat, htext]
    exact hlog.leaves i.1 i.2

/-- **The last run leaves one record for each item** exactly if the file it found was ended, or had a
record for each already. -/
theorem once_iff_ended (leak : Item → Option Leak) (number : List Char → Option F) (set : ItemSet)
    (earlier : List (Invocation F × Option ℕ)) (last : Invocation F)
    (hend : (last.outcome leak number set (fileAfter leak number set earlier)).ending = .finished) :
    (∀ item ∈ set.items,
      recordCount (last.outcome leak number set (fileAfter leak number set earlier)).file item = 1) ↔
    (fileAfter leak number set earlier = [] ∨
      (fileAfter leak number set earlier).getLast? = some '\n' ∨
      ∀ item ∈ set.items, recordCount (fileAfter leak number set earlier) item ≠ 0) := by
  obtain ⟨log, hlog, htext⟩ := kept_fileAfter leak number set earlier
  rw [htext] at hend ⊢
  obtain ⟨rs, hfile, -, hrs⟩ := hlog.appends leak number last
  have hrs := hrs hend
  have hcount : (∀ item ∈ set.items, recordCount (last.outcome leak number set log.text).file item = 1)
      ↔ ∀ id ∈ set.ids, (log.addAll rs).names.count id = 1 := by
    have hone : ∀ item : Item, recordCount (last.outcome leak number set log.text).file item =
        (log.addAll rs).names.count item.id.text := by
      intro item
      rw [hfile, ← Log.text_addAll, recordCount_text]
    unfold ItemSet.ids
    simp only [hone, List.forall_mem_map]
  have hleft : rs = [] ↔ ∀ item ∈ set.items, recordCount log.text item ≠ 0 := by
    rw [← List.map_eq_nil_iff (f := Record.id), hrs, List.filter_eq_nil_iff]
    unfold ItemSet.ids
    simp only [List.forall_mem_map, recordCount_text, ne_eq, List.count_eq_zero,
      decide_eq_true_eq, not_not]
  have honce : (∀ id ∈ set.ids, (log.addAll rs).names.count id = 1) ↔ log.tail = none ∨ rs = [] :=
    Log.once_iff set.distinct hlog.nodup hrs
  rw [hcount, honce, Log.tail_eq_none_iff, hleft, or_assoc]

/-- The arguments of a run. -/
def plainArgs : Args ℕ :=
  ⟨constant "\"m\"", constant "\"primary\"", constant "\"on\"", none, .all⟩

/-- An item. -/
def plainItem : Item := ⟨constant "\"a\"", rfl, constant "\"TP\"", constant "\"juliet\""⟩

/-- How long a request takes. -/
def plainLatency : Value := constant "1.5"

/-- Another item, with the other label. -/
def secondItem : Item := ⟨constant "\"b\"", rfl, constant "\"FP\"", constant "\"juliet\""⟩

/-- One item. -/
def oneItem : ItemSet where
  items := [plainItem]
  distinct := List.nodup_singleton _

/-- Two items. -/
def twoItems : ItemSet where
  items := [plainItem, secondItem]
  distinct := by decide

/-- An error of a server. -/
def busy : Value := constant "\"HTTP 500: busy\""

/-- A server that answers every request with an error. -/
def failing : Invocation ℕ where
  args := plainArgs
  all := rfl
  replies _ := .failed plainLatency busy

/-- A rerun after a run that was killed between two records: it had recorded the first item only. -/
theorem once_iff_ended_failing :
    twoItems.items.map (recordCount (fileAfter (fun _ => none) (fun _ => none) twoItems
      [(failing, some 162)])) = [1, 0] ∧
    ∀ item ∈ twoItems.items, recordCount (failing.outcome (fun _ => none) (fun _ => none) twoItems
      (fileAfter (fun _ => none) (fun _ => none) twoItems [(failing, some 162)])).file item = 1 :=
  ⟨by decide +kernel, (once_iff_ended (fun _ => none) (fun _ => none) twoItems [(failing, some 162)] failing
    (by decide +kernel)).mpr (.inr (.inl (by decide +kernel)))⟩

/-- **A run that is killed within a record line loses the item**: the rerun finishes, and its record is on
the line that broke off. -/
theorem torn_line_loses_item :
    (failing.outcome (fun _ => none) (fun _ => none) oneItem
      (fileAfter (fun _ => none) (fun _ => none) oneItem [(failing, some 5)])).ending = .finished ∧
    ∃ item ∈ oneItem.items, recordCount (failing.outcome (fun _ => none) (fun _ => none) oneItem
      (fileAfter (fun _ => none) (fun _ => none) oneItem [(failing, some 5)])).file item = 0 :=
  ⟨by decide +kernel, by decide +kernel⟩

end CSecureBuild.Harness.Resume
