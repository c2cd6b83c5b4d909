import CSecureBuild.Harness.Dataset
import CSecureBuild.Harness.Outage
import CSecureBuild.Harness.Retry

/-!
`llm-eval/harness/train_sft.py`, up to the training: the records of a teacher whose verdicts agree with the
labels, the examples made of them, and the families held out for the validation.

The records are those of an output file in any state that runs and removals leave. If the program gets to the
training, every line of that file was read, and each example is what `build_messages` gives for an item and an
answer that came back when a run asked for it, which is valid and has the label as its verdict
(`examples_of_run`). No family is in both parts of the examples, and if the items are from `train.jsonl` none is
that of an item in `test.jsonl` (`families_apart`).

Ids and verdicts are compared as JSON texts. `json.dumps` writes one text for each string, so this is `==` for
files that it wrote; in a teacher file by another hand, a string with an escape counts as another one here.
-/

namespace CSecureBuild.Harness.Training

open CSecureBuild.PyLib.Cells CSecureBuild.PyLib.Text CSecureBuild.PyLib.Containers CSecureBuild.PyLib.Json
open CSecureBuild.Harness.Scrub CSecureBuild.Harness.Items CSecureBuild.Harness.Select CSecureBuild.Harness.Builder
open CSecureBuild.Harness.Prompt CSecureBuild.Harness.Dataset CSecureBuild.Harness.Retry
open CSecureBuild.Harness.RunEval (Args Reply Answer Leak triageOne answerMembers)
open CSecureBuild.Harness.Triage (SCHEMA Texts Returned)
open CSecureBuild.Harness.Outage (CallEnd)

/-! ### The program -/

/-- `ANSWER_KEYS` -/
def ANSWER_KEYS : List (List Char) := ["verdict".toList, "confidence".toList, "cwe".toList, "reason".toList]

/-- The id of a row, as `json.dumps` writes it: there is nothing in it to escape. The ids of records are compared
with this text. -/
def idText (row : Row) : List Char := '"' :: row.id ++ ['"']

/-- A label, as `json.dumps` writes it. -/
def labelText : Label → List Char
  | .tp => "\"TP\"".toList
  | .fp => "\"FP\"".toList

/-- An item and the answer of the teacher. -/
abbrev Pair := Row × Fields

/-- What the loop makes of a record with an id: `none` is a `KeyError`. Its verdict is compared as a text. -/
def pairOf (items : Dict (List Char) Row) (record : List Char × Fields) : Option (Option Pair) :=
  match items.get record.1 with
  | none => some none
  | some row =>
    if validRow record.2 = true ∧ get record.2 "verdict".toList = some (labelText (labelOf row.item)) then
      (ANSWER_KEYS.mapM fun k => (get record.2 k).map fun text => ('"' :: k ++ ['"'], text)).map
        fun answer => some (row, answer)
    else some none

/-- An example: `render` gives the texts and the family. -/
structure Example where
  prompt : List Char
  completion : List Char
  family : List Char

section

variable (u : Unicode) (template : List Message → Bool → List Char) (system : List Char)

/-- The lines that `load_jsonl` reads. -/
def jsonLines (text : List Char) : List (List Char) :=
  (splitlines text).filter fun line => line.any fun c => !u.space c

/-- `pairs`, unless something raises or there are none. -/
def pairsOf (pool : List Row) (teacher : List Char) : Option (List Pair) := do
  let records ← (jsonLines u teacher).mapM rowOf
  let pairs ← records.mapM (pairOf (Dict.ofItems (pool.map fun row => (idText row, row))))
  if pairs.filterMap id = [] then none else some (pairs.filterMap id)

/-- `render`; the `template` is told whether a prompt for the answer is added. -/
def render (pair : Pair) : Option Example :=
  match buildMessages u system pair.1.item with
  | .error _ => none
  | .ok messages =>
    let prompt := template messages true
    let full := template (messages ++ [⟨"assistant".toList, dumpRow pair.2⟩]) false
    if prompt.isPrefixOf full then some ⟨prompt, full.drop prompt.length, pair.1.item.family⟩ else none

/-- `held`, where `share` gives `round(n * val_share)`. -/
def heldOut (rng : Shuffle) (share : ℕ → ℕ) (rows : List Example) : List (List Char) :=
  let fams := sorted (rows.map Example.family).dedup
  (shuffle rng [] fams).2.take (max 1 (share fams.length))

/-- `main`, up to the training: the examples for it and those for the validation, unless the program ends
before. -/
def sft (tokens : List Char → ℕ) (maxLength : ℕ) (rng : Shuffle) (share : ℕ → ℕ) (pool : List Row)
    (teacher : List Char) : Option (List Example × List Example) := do
  let pairs ← pairsOf u pool teacher
  let rows ← pairs.mapM (render u template system)
  let held := heldOut rng share rows
  if rows.any fun r => maxLength < tokens (r.prompt ++ r.completion) then none
  else some (rows.filter fun r => r.family ∉ held, rows.filter fun r => r.family ∈ held)

end

/-! ### Records with an answer -/

/-- The answer in a reply. -/
def answerOf : Reply → Option Answer
  | .answered _ answer _ _ => answer
  | .claude _ _ answer => answer
  | _ => none

section

variable {F : Type} {leak : RunEval.Item → Option Leak} {args : Args F} {reply : Reply} {item : RunEval.Item}
  {ms : Members}

/-- What a record says of an answer. -/
structure Gives (ms : Members) (answer : Answer) : Prop where
  verdict : get (entries ms) "verdict".toList = some answer.verdict.text
  confidence : get (entries ms) "confidence".toList = some answer.confidence.text
  cwe : get (entries ms) "cwe".toList = some answer.cwe.text
  reason : get (entries ms) "reason".toList = some answer.reason.text

/-- **An answer in what becomes of a call** came back, and is valid. -/
lemma answer_of_call {texts : Texts} {call : CallEnd} {latency : Value} {answer : Answer}
    (h : answerOf (call.reply texts latency) = some answer) :
    ∃ returned, call = .complete returned ∧ SCHEMA.Valid (texts.answerTo returned) ∧
      texts.answerIn (texts.answerTo returned) = some answer := by
  have hvalid : ∀ {obj}, texts.answerIn obj = some answer → SCHEMA.Valid obj := by
    intro obj hobj
    unfold Texts.answerIn at hobj
    split_ifs at hobj with hok
    exact Triage.schemaValid_iff.mp hok
  cases call with
  | complete returned =>
    suffices hanswer : texts.answerIn (texts.answerTo returned) = some answer from
      ⟨returned, rfl, hvalid hanswer, hanswer⟩
    have h : answerOf (texts.replyTo latency returned) = some answer := h
    cases returned with
    -- the output of `claude`
    | output out =>
      have hreply : texts.replyTo latency (.output out) = (texts.outputReply latency out).getD .raises := rfl
      rw [hreply] at h
      cases hsome : texts.outputReply latency out with
      | none =>
        rw [hsome] at h
        cases h
      | some reply =>
        obtain ⟨p, c, u, f, error, rfl, -⟩ := Triage.outputReply_some hsome
        rw [hsome] at h
        exact h
    -- a response of the server
    | response resp =>
      cases hchoice : Triage.choiceOf resp with
      | none =>
        by_cases hnull : resp = .null
        · subst hnull
          cases h
        · rw [Triage.replyTo_of_none hnull hchoice] at h
          cases h
      | some p =>
        obtain ⟨choice, msg⟩ := p
        rw [Triage.replyTo_of_choice hchoice] at h
        cases hsome : texts.choiceReply latency resp choice msg with
        | none =>
          rw [hsome] at h
          cases h
        | some reply =>
          obtain ⟨direct, usage, rfl⟩ := Triage.choiceReply_some hchoice hsome
          rw [hsome] at h
          exact h
  | _ => cases h

/-- **A record that counts as valid** has the answer of the reply it was made from, and the item was asked for. -/
lemma answer_of_valid (h : triageOne leak args reply item = some ms) (hvalid : validRow (entries ms) = true) :
    leak item = none ∧ ∃ answer, answerOf reply = some answer ∧ Gives ms answer := by
  -- the records without an answer say so
  have hfalse : ∀ fields : Members, get (entries fields) "schema_valid".toList = some "false".toList →
      validRow (entries fields) = false := by
    intro fields hget
    unfold validRow
    rw [hget]
    decide
  unfold triageOne at h
  split at h
  · cases h
    rw [hfalse _ rfl] at hvalid
    cases hvalid
  -- only a reply with an answer is left
  next hleak =>
    refine ⟨hleak, ?_⟩
    obtain ⟨fields, hfields, rfl⟩ := Option.map_eq_some_iff.mp h
    cases reply with
    | raises => cases hfields
    | failed latency error =>
      cases hfields
      rw [hfalse _ rfl] at hvalid
      cases hvalid
    | answered latency answer direct usage =>
      cases hfields
      cases answer with
      | none =>
        rw [hfalse _ rfl] at hvalid
        cases hvalid
      | some answer => exact ⟨answer, rfl, rfl, rfl, rfl, rfl⟩
    | claude latency info answer =>
      cases hfields
      cases answer with
      | none =>
        rw [hfalse _ (by cases info with | failed error => rfl | reported p c u f error => cases error <;> rfl)]
          at hvalid
        cases hvalid
      | some answer =>
        refine ⟨answer, rfl, ?_⟩
        cases info with
        | failed error => exact ⟨rfl, rfl, rfl, rfl⟩
        | reported p c u f error => cases error <;> exact ⟨rfl, rfl, rfl, rfl⟩

end

/-! ### Pairs and examples -/

section

variable {u : Unicode} {template : List Message → Bool → List Char} {system : List Char} {pool : List Row}
  {teacher : List Char} {pair : Pair} {ex : Example}

/-- A pair has the item of its record, and the verdict of the record is its label. -/
lemma pairOf_some {record : List Char × Fields}
    (h : pairOf (Dict.ofItems (pool.map fun row => (idText row, row))) record = some (some pair)) :
    pair.1 ∈ pool ∧ idText pair.1 = record.1 ∧ validRow record.2 = true ∧
      get record.2 "verdict".toList = some (labelText (labelOf pair.1.item)) ∧
      ANSWER_KEYS.mapM (fun k => (get record.2 k).map fun text => ('"' :: k ++ ['"'], text)) = some pair.2 := by
  unfold pairOf at h
  split at h
  · cases h
  next row hrow =>
    obtain ⟨row', hrow', hpair⟩ := List.mem_map.mp (Dict.mem_of_get_ofItems hrow)
    obtain ⟨hid, rfl⟩ := Prod.mk.inj hpair
    split_ifs at h with hagrees
    · obtain ⟨answer, hanswer, hsome⟩ := Option.map_eq_some_iff.mp h
      obtain rfl := Option.some.inj hsome
      exact ⟨hrow', hid, hagrees.1, hagrees.2, hanswer⟩
    · cases h

lemma mem_pairsOf {pairs : List Pair} (h : pairsOf u pool teacher = some pairs) :
    pairs ≠ [] ∧ ∃ records, (jsonLines u teacher).mapM rowOf = some records ∧ ∀ pair ∈ pairs, ∃ record ∈ records,
      pairOf (Dict.ofItems (pool.map fun row => (idText row, row))) record = some (some pair) := by
  obtain ⟨records, hrecords, h⟩ := Option.bind_eq_some_iff.mp h
  obtain ⟨found, hfound, h⟩ := Option.bind_eq_some_iff.mp h
  split_ifs at h with hnil
  obtain rfl := Option.some.inj h
  refine ⟨hnil, records, hrecords, fun pair hpair => ?_⟩
  obtain ⟨p, hp, hid⟩ := List.mem_filterMap.mp hpair
  obtain rfl : p = some pair := hid
  exact exists_of_mem_mapM hfound hp

/-- **What `render` gives.** -/
lemma render_some (h : render u template system pair = some ex) :
    ∃ messages, buildMessages u system pair.1.item = .ok messages ∧ ex.prompt = template messages true ∧
      ex.prompt ++ ex.completion = template (messages ++ [⟨"assistant".toList, dumpRow pair.2⟩]) false ∧
      ex.family = pair.1.item.family := by
  unfold render at h
  split at h
  · cases h
  next messages hmessages =>
    simp only at h
    split_ifs at h with hprefix
    obtain rfl := Option.some.inj h
    refine ⟨messages, hmessages, rfl, ?_, rfl⟩
    exact List.prefix_iff_eq_append.mp (List.isPrefixOf_iff_prefix.mp hprefix)

variable {tokens : List Char → ℕ} {maxLength : ℕ} {rng : Shuffle} {share : ℕ → ℕ} {fit val : List Example}

/-- What gets to the training. -/
lemma sft_some (h : sft u template system tokens maxLength rng share pool teacher = some (fit, val)) :
    ∃ pairs rows, pairsOf u pool teacher = some pairs ∧ pairs.mapM (render u template system) = some rows ∧
      (∀ r ∈ rows, tokens (r.prompt ++ r.completion) ≤ maxLength) ∧
      fit = (rows.filter fun r => r.family ∉ heldOut rng share rows) ∧
      val = rows.filter fun r => r.family ∈ heldOut rng share rows := by
  obtain ⟨pairs, hpairs, h⟩ := Option.bind_eq_some_iff.mp h
  obtain ⟨rows, hrows, h⟩ := Option.bind_eq_some_iff.mp h
  simp only at h
  split_ifs at h with hlong
  obtain ⟨rfl, rfl⟩ := Prod.mk.inj (Option.some.inj h)
  refine ⟨pairs, rows, hpairs, hrows, fun r hr => ?_, rfl, rfl⟩
  by_contra hlt
  exact hlong (List.any_eq_true.mpr ⟨r, hr, by simpa using hlt⟩)

lemma mem_rows {rows : List Example} (hfit : fit = rows.filter fun r => r.family ∉ heldOut rng share rows)
    (hval : val = rows.filter fun r => r.family ∈ heldOut rng share rows) : ex ∈ fit ++ val ↔ ex ∈ rows := by
  rw [hfit, hval, List.mem_append, List.mem_filter, List.mem_filter]
  by_cases hheld : ex.family ∈ heldOut rng share rows <;> simp [hheld]

end

/-! ### The records of runs -/

section

variable {u : Unicode} {set : Resume.ItemSet} {made : RunEval.Item → Members → Prop} {file : List Char}

lemma jsonLines_held (h : Held set made file) : jsonLines u file = splitlines file := by
  obtain ⟨log, -, rfl⟩ := h.ids
  unfold jsonLines
  rw [log.splitlines_text]
  refine List.filter_eq_self.mpr fun line hline => ?_
  obtain ⟨e, -, rfl⟩ := List.mem_map.mp hline
  have hbrace : u.space '{' = false := by
    rw [u.space_ascii _ (by decide)]
    decide
  exact List.any_eq_true.mpr ⟨'{', List.mem_of_head? e.begun, by simp [hbrace]⟩

lemma records_of_rows (h : Held set made file) {rows : List (List Char × Fields)}
    (hrows : (splitlines file).mapM rowOf = some rows) :
    (∀ line ∈ splitlines file, Resume.lineId line ≠ none) ∧ ∀ row ∈ rows, ∃ r : Resume.Record, OfSet set made r ∧
      row = (r.id, entries r.members) := by
  have hread : ∀ line ∈ splitlines file, Resume.lineId line ≠ none := by
    intro line hline hid
    rw [mapM_eq_none_iff.mpr ⟨line, hline, rowOf_eq_none hid⟩] at hrows
    cases hrows
  obtain ⟨rs, hlines, hrs⟩ := h.records hread
  rw [rows_of_records hlines hrs] at hrows
  obtain rfl := Option.some.inj hrows
  refine ⟨hread, fun row hrow => ?_⟩
  obtain ⟨r, hr, rfl⟩ := List.mem_map.mp hrow
  exact ⟨r, hrs r hr, rfl⟩

lemma answer_text {ms : Members} {answer : Answer} (h : Gives ms answer) {fields : Fields}
    (hfields : ANSWER_KEYS.mapM (fun k => (get (entries ms) k).map fun text => ('"' :: k ++ ['"'], text)) =
      some fields) : dumpRow fields = dumps (answerMembers (some answer)) := by
  have hentries : fields = entries (answerMembers (some answer)) := by
    simp only [ANSWER_KEYS, List.mapM_cons, List.mapM_nil, h.verdict, h.confidence, h.cwe, h.reason] at hfields
    exact (Option.some.inj hfields).symm
  rw [hentries]
  exact dumpRow_entries (by simp [answerMembers, RunEval.key])

variable {F : Type} [Zero F] [Add F] [LE F] [DecidableLE F]

/-- **The examples of a run**: if `main` gets to the training, with the output file of any runs and removals for
its teacher, wherever these were killed, then every line of the file was read; and each example is what
`build_messages` gives for an item, with the answer that came back when a run asked for this item, which is valid
and whose verdict is the label. The prompt and the completion together are the conversation as the template
renders it, and not longer than allowed. -/
theorem examples_of_run (u : Unicode) (template : List Message → Bool → List Char) (system : List Char)
    (tokens : List Char → ℕ) (maxLength : ℕ) (rng : Shuffle) (share : ℕ → ℕ) (pool : List Row)
    (leak : RunEval.Item → Option Leak) (number : List Char → Option F) (set : Resume.ItemSet) (texts : Texts)
    (steps : List (Step F)) (fit val : List Example)
    (hcalls : ∀ i kill, Step.run i kill ∈ steps → ∃ calls : ℕ → Value × CallEnd,
      ∀ n, i.replies n = (calls n).2.reply texts (calls n).1)
    (h : sft u template system tokens maxLength rng share pool (fileOf leak number set steps) = some (fit, val)) :
    (∀ line ∈ splitlines (fileOf leak number set steps), Resume.lineId line ≠ none) ∧
      ∀ ex ∈ fit ++ val, ∃ row ∈ pool, ∃ item ∈ set.items, ∃ before i kill after k latency returned answer messages,
        steps = before ++ Step.run i kill :: after ∧ i.Asks set (fileOf leak number set before) k item ∧
        item.id.text = idText row ∧ leak item = none ∧
        i.replies (k + 1) = texts.replyTo latency returned ∧ SCHEMA.Valid (texts.answerTo returned) ∧
        texts.answerIn (texts.answerTo returned) = some answer ∧
        answer.verdict.text = labelText (labelOf row.item) ∧
        buildMessages u system row.item = .ok messages ∧ ex.family = row.item.family ∧
        ex.prompt = template messages true ∧
        ex.prompt ++ ex.completion =
          template (messages ++ [⟨"assistant".toList, dumps (answerMembers (some answer))⟩]) false ∧
        tokens (ex.prompt ++ ex.completion) ≤ maxLength := by
  obtain ⟨pairs, rows, hpairs, hrows, hlength, hfit, hval⟩ := sft_some h
  obtain ⟨-, records, hrecords, hfrom⟩ := mem_pairsOf hpairs
  have hheld : Held set (fun item ms => ∃ before i kill after k, steps = before ++ Step.run i kill :: after ∧
      i.Asks set (fileOf leak number set before) k item ∧
      triageOne leak i.args (i.replies (k + 1)) item = some ms) (fileOf leak number set steps) :=
    held_fileOf fun before i kill after heq k item ms hasks h => ⟨before, i, kill, after, k, heq, hasks, h⟩
  rw [jsonLines_held hheld] at hrecords
  obtain ⟨hread, hgenuine⟩ := records_of_rows hheld hrecords
  refine ⟨hread, fun ex hex => ?_⟩
  -- from the example to its pair, from there to the record, and to the request it was made for
  have hex := (mem_rows hfit hval).mp hex
  obtain ⟨pair, hpair, hrender⟩ := exists_of_mem_mapM hrows hex
  obtain ⟨messages, hmessages, hprompt, hfull, hfamily⟩ := render_some hrender
  obtain ⟨record, hrecord, hagrees⟩ := hfrom pair hpair
  obtain ⟨r, ⟨item, hitem, hid, -, before, i, kill, after, k, heq, hasks, htriage⟩, rfl⟩ :=
    hgenuine record hrecord
  obtain ⟨hpool, hidText, hvalid, hverdict, hfields⟩ := pairOf_some hagrees
  obtain ⟨hleak, answer, hanswer, hgives⟩ := answer_of_valid htriage hvalid
  rw [hgives.verdict] at hverdict
  rw [answer_text hgives hfields] at hfull
  -- the reply was that to a call, so the answer came back with it
  obtain ⟨calls, hreplies⟩ := hcalls i kill (heq ▸ List.mem_append_right _ List.mem_cons_self)
  rw [hreplies] at hanswer
  obtain ⟨returned, hcall, hschema, hin⟩ := answer_of_call hanswer
  have hreply : i.replies (k + 1) = texts.replyTo (calls (k + 1)).1 returned := by
    rw [hreplies, hcall]
    rfl
  exact ⟨pair.1, hpool, item, hitem, before, i, kill, after, k, _, returned, answer, messages, heq, hasks,
    by rw [hidText, ← hid], hleak, hreply, hschema, hin, Option.some.inj hverdict, hmessages, hfamily, hprompt,
    hfull, hlength ex hex⟩

/-- How `json.dumps` writes what the teacher says. -/
def saying : Texts where
  loads _ := .notJson
  dumps
    | .str s =>
      if s = "TP".toList then Resume.plainItem.label
      else if s = "FP".toList then Resume.secondItem.label
      else if s = "CWE-121".toList then Retry.plainAnswer.cwe
      else Retry.plainAnswer.reason
    | .num _ => Retry.plainAnswer.confidence
    | _ => RunEval.null
  shapeError := Triage.plain.shapeError
  claudeError := Triage.plain.claudeError

/-- What `claude` prints with a verdict. -/
def output (verdict : String) : Returned :=
  .output (.dict [("structured_output".toList, .dict [("verdict".toList, .str verdict.toList),
    ("confidence".toList, .num (.finite 1)), ("cwe".toList, .str "CWE-121".toList),
    ("reason".toList, .str "r".toList)])])

/-- A teacher who calls the first item a flaw, and no other. -/
def teaching (n : ℕ) : Value × CallEnd :=
  (Resume.plainLatency, .complete (output (if n = 1 then "TP" else "FP")))

/-- A run with this teacher. -/
def agreeing : Run ℕ where
  args := Resume.plainArgs
  replies n := (teaching n).2.reply saying (teaching n).1

/-- An item of a family, with a label. -/
def poolRow (id family : List Char) (stratum : Stratum) : Row where
  id := id
  item :=
    { key := family ++ "_01.c:1:r".toList
      family
      stratum
      tool := "semgrep".toList
      ruleId := "r".toList
      cwe := "121".toList
      message := "m".toList
      file := "juliet/121/".toList ++ family ++ "_01.c".toList
      startLine := 1
      endLine := 1
      codeContext := "int a;\n".toList }

/-- A flaw of one family, and none of another. -/
def twoRows : List Row := [poolRow "a".toList "s".toList .tp, poolRow "b".toList "t".toList .fpPaired]

/-- The contents of the messages, one after the other. -/
def plainTemplate (messages : List Message) (_ : Bool) : List Char := messages.flatMap Message.content

/-- What is made of the answers. -/
def twoExamples : Option (List Example × List Example) :=
  sft ascii plainTemplate [] List.length 1000 (fun _ _ => Equiv.refl _) (fun _ => 1) twoRows
    (fileOf (fun _ => none) (fun _ => none) Resume.twoItems [Step.run agreeing none])

lemma isSome_twoExamples : twoExamples.isSome = true := by decide +kernel

/-- Each example has the family of its item, and the label for its verdict. -/
theorem examples_of_run_two : ∃ fit val, twoExamples = some (fit, val) ∧ ∀ ex ∈ fit ++ val, ∃ row ∈ twoRows,
    ∃ k latency returned answer, agreeing.replies (k + 1) = saying.replyTo latency returned ∧
      saying.answerIn (saying.answerTo returned) = some answer ∧
      answer.verdict.text = labelText (labelOf row.item) ∧ ex.family = row.item.family := by
  obtain ⟨⟨fit, val⟩, hrun⟩ := Option.isSome_iff_exists.mp isSome_twoExamples
  refine ⟨fit, val, hrun, fun ex hex => ?_⟩
  have hone : ∀ i kill, Step.run i kill ∈ [Step.run agreeing none] → i = agreeing := fun i kill h =>
    (Step.run.inj (List.mem_singleton.mp h)).1
  obtain ⟨row, hrow, -, -, before, i, kill, after, k, latency, returned, answer, -, heq, -, -, -, hreply, -, hin,
      hverdict, -, hfamily, -⟩ :=
    (examples_of_run ascii plainTemplate [] List.length 1000 (fun _ _ => Equiv.refl _) (fun _ => 1) twoRows
      (fun _ => none) (fun _ => none) Resume.twoItems saying [Step.run agreeing none] fit val
      (fun i kill h => ⟨teaching, fun n => by rw [hone i kill h]; rfl⟩) hrun).2 ex hex
  obtain rfl := hone i kill (heq ▸ List.mem_append_right _ List.mem_cons_self)
  exact ⟨row, hrow, k, latency, returned, answer, hreply, hin, hverdict, hfamily⟩

end

/-! ### The families -/

section

variable {rng : Shuffle} {share : ℕ → ℕ} {rows : List Example}

/-- The families of some examples. -/
def familiesOf (examples : List Example) : Finset (List Char) := (examples.map Example.family).toFinset

lemma mem_familiesOf {examples : List Example} {fam : List Char} :
    fam ∈ familiesOf examples ↔ ∃ ex ∈ examples, ex.family = fam := by
  simp [familiesOf]

lemma shuffled_perm (rng : Shuffle) (rows : List Example) :
    (shuffle rng [] (sorted (rows.map Example.family).dedup)).2.Perm (rows.map Example.family).dedup :=
  (shuffle_perm rng [] _).trans (List.mergeSort_perm _ _)

lemma nodup_heldOut : (heldOut rng share rows).Nodup :=
  ((shuffled_perm rng rows).nodup_iff.mpr (List.nodup_dedup _)).sublist (List.take_sublist _ _)

lemma mem_of_heldOut {fam : List Char} (h : fam ∈ heldOut rng share rows) : fam ∈ familiesOf rows := by
  have := (shuffled_perm rng rows).subset (List.mem_of_mem_take h)
  exact List.mem_toFinset.mpr (List.mem_dedup.mp this)

lemma length_heldOut : (heldOut rng share rows).length =
    min (max 1 (share (familiesOf rows).card)) (familiesOf rows).card := by
  have hcard : (sorted (rows.map Example.family).dedup).length = (familiesOf rows).card :=
    ((List.mergeSort_perm _ _).length_eq).trans (List.card_toFinset _).symm
  unfold heldOut
  simp only
  rw [List.length_take, (shuffle_perm rng [] _).length_eq, hcard]

lemma card_val : (familiesOf (rows.filter fun r => r.family ∈ heldOut rng share rows)).card =
    min (max 1 (share (familiesOf rows).card)) (familiesOf rows).card := by
  have hval : familiesOf (rows.filter fun r => r.family ∈ heldOut rng share rows) =
      (heldOut rng share rows).toFinset := by
    ext fam
    rw [mem_familiesOf, List.mem_toFinset]
    constructor
    · rintro ⟨ex, hex, rfl⟩
      simpa using (List.mem_filter.mp hex).2
    · intro hfam
      obtain ⟨ex, hex, rfl⟩ := mem_familiesOf.mp (mem_of_heldOut hfam)
      exact ⟨ex, List.mem_filter.mpr ⟨hex, by simpa using hfam⟩, rfl⟩
  rw [hval, List.toFinset_card_of_nodup nodup_heldOut, length_heldOut]

/-- **Families are kept apart**: none is in the training and in the validation. As many are held out as the share
says, one at least; and where the items are from `train.jsonl`, none is that of an item in the `test.jsonl` of the
same run of `build_v2.py`. -/
theorem families_apart (u : Unicode) (template : List Message → Bool → List Char) (system : List Char)
    (tokens : List Char → ℕ) (maxLength : ℕ) (rng : Shuffle) (share : ℕ → ℕ) (pool : List Row)
    (teacher : List Char) (fit val : List Example)
    (h : sft u template system tokens maxLength rng share pool teacher = some (fit, val)) :
    Disjoint (familiesOf fit) (familiesOf val) ∧ val ≠ [] ∧
      (familiesOf val).card =
        min (max 1 (share (familiesOf (fit ++ val)).card)) (familiesOf (fit ++ val)).card ∧
      ∀ (work : Work) (draws : List Char → ℕ → Fin SYLLABLES.length) (tries : ℕ) (seeded : Shuffle) (cap : ℕ → ℕ)
        (reports : List (List Finding)) (test train : List Item),
        cmdItems u work draws tries seeded cap reports = some (test, train) → (∀ row ∈ pool, row.item ∈ train) →
        ∀ ex ∈ fit ++ val, ∀ item ∈ test, ex.family ≠ item.family := by
  obtain ⟨pairs, rows, hpairs, hrows, -, hfit, hval⟩ := sft_some h
  obtain ⟨hne, records, -, hfrom⟩ := mem_pairsOf hpairs
  have hfamilies : familiesOf (fit ++ val) = familiesOf rows := by
    ext fam
    simp only [mem_familiesOf, mem_rows hfit hval]
  have hcard : (familiesOf val).card = min (max 1 (share (familiesOf rows).card)) (familiesOf rows).card := by
    rw [hval, card_val]
  -- there are pairs, so that there is a family
  have hsome : 0 < (familiesOf rows).card := by
    obtain ⟨pair, rest, rfl⟩ := List.exists_cons_of_ne_nil hne
    rw [List.mapM_cons] at hrows
    obtain ⟨ex, -, hrest⟩ := Option.bind_eq_some_iff.mp hrows
    obtain ⟨more, -, hmore⟩ := Option.bind_eq_some_iff.mp hrest
    obtain rfl := Option.some.inj hmore
    exact Finset.card_pos.mpr ⟨ex.family, mem_familiesOf.mpr ⟨ex, List.mem_cons_self, rfl⟩⟩
  refine ⟨?_, ?_, by rw [hfamilies, hcard], ?_⟩
  · -- the two parts are divided by the family
    rw [Finset.disjoint_left]
    intro fam hmem hmem'
    obtain ⟨ex, hex, rfl⟩ := mem_familiesOf.mp hmem
    obtain ⟨ex', hex', hsame⟩ := mem_familiesOf.mp hmem'
    rw [hfit] at hex
    rw [hval] at hex'
    have hout := (List.mem_filter.mp hex).2
    have hin := (List.mem_filter.mp hex').2
    rw [hsame] at hin
    rw [decide_eq_true_eq] at hout hin
    exact hout hin
  · rintro rfl
    have : (familiesOf []).card = 0 := rfl
    omega
  · -- each example has the family of its item, which is in the other part of the data
    intro work draws tries seeded cap reports test train hrun hpool ex hex item hitem
    obtain ⟨pair, hpair, hrender⟩ := exists_of_mem_mapM hrows ((mem_rows hfit hval).mp hex)
    obtain ⟨-, -, -, -, hfamily⟩ := render_some hrender
    obtain ⟨record, -, hagrees⟩ := hfrom pair hpair
    rw [hfamily]
    exact (family_ne_of_run hrun hitem (hpool pair.1 (pairOf_some hagrees).1)).symm

lemma families_twoRows : ((pairsOf ascii twoRows (fileOf (fun _ => none) (fun _ => none) Resume.twoItems
    [Step.run agreeing none])).bind fun pairs => pairs.mapM (render ascii plainTemplate [])).map
      (fun rows => rows.map Example.family) = some ["s".toList, "t".toList] := by decide +kernel

/-- Of two families one is for the training and one for the validation. -/
theorem families_apart_two : ∃ fit val, twoExamples = some (fit, val) ∧ Disjoint (familiesOf fit) (familiesOf val) ∧
    (familiesOf fit).card = 1 ∧ (familiesOf val).card = 1 := by
  obtain ⟨⟨fit, val⟩, hrun⟩ := Option.isSome_iff_exists.mp isSome_twoExamples
  obtain ⟨hdisjoint, -, hcard, -⟩ := families_apart ascii plainTemplate [] List.length 1000
    (fun _ _ => Equiv.refl _) (fun _ => 1) twoRows _ fit val hrun
  obtain ⟨pairs, rows, hpairs, hrows, -, hfit, hval⟩ := sft_some hrun
  have hfamilies := families_twoRows
  rw [hpairs, Option.bind_some, hrows] at hfamilies
  have hboth : familiesOf (fit ++ val) = {"s".toList, "t".toList} := by
    ext fam
    simp only [mem_familiesOf, mem_rows hfit hval]
    rw [← List.mem_map]
    rw [show rows.map Example.family = _ from Option.some.inj hfamilies]
    simp
  have htwo : (familiesOf (fit ++ val)).card = 2 := by
    rw [hboth]
    exact Finset.card_pair (by decide)
  have hunion : familiesOf (fit ++ val) = familiesOf fit ∪ familiesOf val := by
    simp [familiesOf]
  rw [htwo] at hcard
  rw [hunion, Finset.card_union_of_disjoint hdisjoint] at htwo
  refine ⟨fit, val, hrun, hdisjoint, ?_, hcard⟩
  omega

end

end CSecureBuild.Harness.Training
