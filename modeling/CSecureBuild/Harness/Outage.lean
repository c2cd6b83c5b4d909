import CSecureBuild.Harness.Resume
import CSecureBuild.Harness.Triage

/-!
What `cmd_run` makes of a call that fails. `post` and `triage_claude` turn a failure into an error text, and
the loop stops without a record exactly for the texts that begin with `request failed`; `kept_iff` says of
which calls the loop keeps a record exactly if the model gave a complete reply. Any JSON value that came back
counts as one, that of a `claude` which reports an error (`is_error`) too.
-/

namespace CSecureBuild.Harness.Outage

open CSecureBuild.PyLib.Json CSecureBuild.PyLib.Text CSecureBuild.PyLib.Objects
open CSecureBuild.Lib.LineLog CSecureBuild.Harness.RunEval CSecureBuild.Harness.Resume
open CSecureBuild.Harness.Triage

/-! ### Calls -/

/-- The text of an error that begins in some way. -/
abbrev ErrorText (front : String) := { error : Value // ('"' :: front.toList) <+: error.text }

/-- How a call of the backend ends. -/
inductive CallEnd where
  /-- The server is not there, breaks off or is late. -/
  | requestFailed (error : ErrorText "request failed: ")
  /-- An HTTP status other than success. -/
  | httpError (error : ErrorText "HTTP ")
  /-- A body that is not JSON. -/
  | notJson (error : ErrorText "response is not JSON: ")
  /-- The command `claude` is missing, late, or prints no JSON. -/
  | claudeFailed (error : ErrorText "claude failed: ")
  /-- An exception that nothing catches. -/
  | raises
  /-- A JSON value. -/
  | complete (returned : Returned)

/-- How it ends to open the URL and to read the response. An exception comes with the text made of it. -/
inductive Opened where
  /-- `HTTPError`. -/
  | httpError (error : ErrorText "HTTP ")
  /-- `URLError`, `TimeoutError`, or another `OSError`. -/
  | osError (error : ErrorText "request failed: ")
  /-- Another exception. -/
  | other
  /-- The body, and the text made of the exception if it is not JSON. -/
  | body (raw : List Char) (error : ErrorText "response is not JSON: ")

/-- `post` -/
def post (texts : Texts) : Opened → CallEnd
  | .httpError error => .httpError error
  | .osError error => .requestFailed error
  | .other => .raises
  | .body raw error =>
    match texts.loads raw with
    | .value body => .complete (.response body)
    | .notJson => .notJson error
    | .raises => .raises

/-- How it ends to run `claude`. -/
inductive Ran where
  /-- `SubprocessError` or `OSError`. -/
  | failed (error : ErrorText "claude failed: ")
  /-- Another exception. -/
  | other
  /-- What it printed, and the text made of the exception if that is not JSON. -/
  | stdout (printed : List Char) (error : ErrorText "claude failed: ")

/-- `triage_claude`, up to the look-ups in what was printed. -/
def triageClaude (texts : Texts) : Ran → CallEnd
  | .failed error => .claudeFailed error
  | .other => .raises
  | .stdout printed error =>
    match texts.loads printed with
    | .value out => .complete (.output out)
    | .notJson => .claudeFailed error
    | .raises => .raises

/-- What `triage_one` makes of a call. -/
def CallEnd.reply (texts : Texts) (latency : Value) : CallEnd → Reply
  | .requestFailed error => .failed latency error.1
  | .httpError error => .failed latency error.1
  | .notJson error => .failed latency error.1
  | .claudeFailed error => .claude latency (.failed error.1) none
  | .raises => .raises
  | .complete returned => texts.replyTo latency returned

/-- A complete reply came back. -/
def CallEnd.isComplete : CallEnd → Bool
  | .complete _ => true
  | _ => false

/-! ### One item -/

section

variable {F : Type} {leak : Item → Option Leak} {args : Args F} {item : Item} {texts : Texts}
  {latency : Value}

/-- `triage_one` makes a record that the loop does not take for a failed request. -/
def Taken (leak : Item → Option Leak) (args : Args F) (reply : Reply) (item : Item) : Prop :=
  ∃ record, triageOne leak args reply item = some record ∧ requestFailed record = false

lemma not_requestFailed {record : Members} {error : Value} {front : List Char}
    (hget : get (entries record) "error".toList = some error.text) (h : front <+: error.text)
    (hfront : ∀ more, "\"request failed".toList.isPrefixOf (front ++ more) = false) :
    requestFailed record = false := by
  obtain ⟨more, hmore⟩ := h
  unfold requestFailed
  rw [hget, ← hmore]
  exact hfront more

/-- `triage_one` makes a record of what came back. -/
def Answered (texts : Texts) : Returned → Prop
  | .response resp => ∀ choice msg, choiceOf resp = some (choice, msg) → Readable texts resp msg
  | .output out => out.isDict = true ∧ (out.field "usage").orDict.isDict = true

/-- Which calls the loop keeps a record of. -/
def CallEnd.Recorded (texts : Texts) : CallEnd → Prop
  | .requestFailed _ => False
  | .raises => False
  | .complete returned => Answered texts returned
  | _ => True

lemma taken_of_none {reply : Reply} (hleak : leak item = none) : Taken leak args reply item ↔
    ∃ fields, reply.members = some fields ∧ requestFailed (header args item ++ fields) = false := by
  unfold Taken triageOne
  simp only [hleak, Option.map_eq_some_iff]
  constructor
  · rintro ⟨_, ⟨fields, hfields, rfl⟩, hrecord⟩
    exact ⟨fields, hfields, hrecord⟩
  · rintro ⟨fields, hfields, hrecord⟩
    exact ⟨_, ⟨fields, hfields, rfl⟩, hrecord⟩

lemma not_taken_raises (hleak : leak item = none) : ¬ Taken leak args .raises item := by
  rw [taken_of_none hleak]
  rintro ⟨fields, h, -⟩
  cases h

lemma taken_failed {error : Value} {front : List Char} (hleak : leak item = none)
    (h : front <+: error.text)
    (hfront : ∀ more, "\"request failed".toList.isPrefixOf (front ++ more) = false) :
    Taken leak args (.failed latency error) item :=
  (taken_of_none hleak).mpr ⟨_, rfl, not_requestFailed rfl h hfront⟩

lemma taken_answered (hleak : leak item = none) (answer : Option Answer) (direct : Bool)
    (usage : Usage) : Taken leak args (.answered latency answer direct usage) item := by
  refine (taken_of_none hleak).mpr ⟨_, rfl, ?_⟩
  cases answer with
  | some answer => rfl
  | none => cases direct <;> rfl

lemma taken_claude (hleak : leak item = none) (answer : Option Answer) {p c u f : Value}
    {error : Option Value} (h : ∀ e ∈ error, "\"claude error: ".toList <+: e.text) :
    Taken leak args (.claude latency (.reported p c u f error) answer) item := by
  refine (taken_of_none hleak).mpr ⟨_, rfl, ?_⟩
  cases error with
  | some error => cases answer <;> exact not_requestFailed rfl (h error rfl) fun _ => rfl
  | none => cases answer <;> rfl

/-- **A value that came back is taken** exactly if it is answered. -/
theorem taken_complete_iff (hleak : leak item = none) (returned : Returned) :
    Taken leak args (texts.replyTo latency returned) item ↔ Answered texts returned := by
  cases returned with
  | output out =>
    -- output of `claude`: it is a reply if it is the object the script asks for
    have hreply : texts.replyTo latency (.output out) = (texts.outputReply latency out).getD .raises :=
      rfl
    have hanswered : Answered texts (.output out) ↔
        ∃ reply, texts.outputReply latency out = some reply :=
      outputReply_iff.symm
    rw [hreply, hanswered]
    cases hsome : texts.outputReply latency out with
    | none => exact iff_of_false (not_taken_raises hleak) (by simp)
    | some reply =>
      obtain ⟨p, c, u, f, error, rfl, herror⟩ := outputReply_some hsome
      exact iff_of_true (taken_claude hleak _ herror) ⟨_, rfl⟩
  | response resp =>
    cases hchoice : choiceOf resp with
    | none =>
      -- a response that has no choice is recorded as an error
      refine iff_of_true ?_ fun choice msg h => ?_
      · by_cases hnull : resp = .null
        · subst hnull
          exact (taken_of_none hleak).mpr ⟨_, rfl, rfl⟩
        · rw [replyTo_of_none hnull hchoice]
          exact taken_failed hleak (texts.shapeError resp).2 fun _ => rfl
      · rw [hchoice] at h
        cases h
    | some p =>
      obtain ⟨choice, msg⟩ := p
      have hanswered : Answered texts (.response resp) ↔
          ∃ reply, texts.choiceReply latency resp choice msg = some reply := by
        rw [choiceReply_iff hchoice]
        unfold Answered
        simp [hchoice]
      rw [replyTo_of_choice hchoice, hanswered]
      cases hsome : texts.choiceReply latency resp choice msg with
      | none => exact iff_of_false (not_taken_raises hleak) (by simp)
      | some reply =>
        obtain ⟨direct, usage, rfl⟩ := choiceReply_some hchoice hsome
        exact iff_of_true (taken_answered hleak _ direct usage) ⟨_, rfl⟩

lemma taken_iff (call : CallEnd) : Taken leak args (call.reply texts latency) item ↔
    leak item ≠ none ∨ call.Recorded texts := by
  cases hleak : leak item with
  | some error =>
    refine iff_of_true ⟨_, by unfold triageOne; rw [hleak], ?_⟩ (Or.inl (by simp))
    exact not_requestFailed rfl error.2 fun _ => rfl
  | none =>
    rw [or_iff_right (not_not.mpr rfl)]
    cases call with
    | complete returned => exact taken_complete_iff hleak returned
    | requestFailed error =>
      refine iff_of_false ?_ id
      rw [CallEnd.reply, taken_of_none hleak]
      rintro ⟨fields, h, hrecord⟩
      cases h
      obtain ⟨more, hmore⟩ := error.2
      have hget : requestFailed (header args item ++ [(key "latency_s", latency), (key "error", error.1),
          (key "schema_valid", flag false), (key "verdict", null)]) =
          "\"request failed".toList.isPrefixOf error.1.text := rfl
      rw [hget, ← hmore] at hrecord
      cases hrecord
    | httpError error => exact iff_of_true (taken_failed hleak error.2 fun _ => rfl) trivial
    | notJson error => exact iff_of_true (taken_failed hleak error.2 fun _ => rfl) trivial
    | claudeFailed error =>
      refine iff_of_true ((taken_of_none hleak).mpr ⟨_, rfl, ?_⟩) trivial
      exact not_requestFailed rfl error.2 fun _ => rfl
    | raises => exact iff_of_false (not_taken_raises hleak) id

end

/-! ### The loop -/

section

variable {F : Type} [Zero F] [Add F] [LE F] [DecidableLE F] {leak : Item → Option Leak}
  {number : List Char → Option F} {args : Args F} {item : Item}

/-- There is a record of an item behind what was in the file. -/
def Appended (file : List Char) (out : Outcome) (item : Item) : Prop :=
  ∃ record, get (entries record) "id".toList = some item.id.text ∧
    file ++ recordLine record <+: out.file

/-- The run stops and leaves the file as it was. If that was a log of records when the run began, and the items
have distinct ids, then a rerun asks for the item. -/
structure Stopped (args : Args F) (items : List Item) (before file : List Char) (out : Outcome) (item : Item) :
    Prop where
  unchanged : out.file = file
  ending : out.ending = .gone ∨ out.ending = .raised
  again : ∀ log : Log recordCodec, before = log.text → (∀ id ∈ log.names, unhashable id = false) →
    (items.map fun item => item.id.text).Nodup →
      ∃ done, doneIds (splitlines out.file) = some done ∧ item ∈ todo args.source done items

variable {items : List Item} {before : List Char}

lemma not_appended {file : List Char} {out : Outcome} (h : out.file = file) : ¬ Appended file out item := by
  rintro ⟨record, -, hprefix⟩
  have hlength := hprefix.length_le
  rw [h, List.length_append] at hlength
  have hline : 0 < (recordLine record).length := by simp [recordLine]
  omega

/-- **The loop appends what is taken.** -/
theorem loop_appended (replies : ℕ → Reply) (n : ℕ) (spent : F) (file : List Char) (items : List Item)
    (h : Taken leak args (replies n) item) :
    Appended file (loop leak number args replies n spent file (item :: items)) item := by
  obtain ⟨record, hrecord, hgone⟩ := h
  obtain ⟨r, rfl, hid⟩ := triageOne_record hrecord
  refine ⟨r.members, r.get_id.trans (congrArg some hid), ?_⟩
  rw [loop]
  simp only [hrecord, hgone, Bool.false_eq_true, if_false]
  cases hcost : costOf number (entries r.members) with
  | none => exact List.prefix_rfl
  | some cost =>
    simp only
    split
    · exact List.prefix_rfl
    · have happends : ∃ rs, (loop leak number args replies (n + 1) (spent + cost)
          (file ++ recordLine r.members) items).file = file ++ recordLine r.members ++ rs := by
        obtain ⟨rs, hfile, -⟩ := loop_appends replies (n + 1) (spent + cost)
          (file ++ recordLine r.members) items
        exact ⟨_, hfile⟩
      obtain ⟨rs, hfile⟩ := happends
      rw [hfile]
      exact List.prefix_append _ rs

/-- **The loop stops at what is not taken.** -/
theorem loop_stopped (replies : ℕ → Reply) (n : ℕ) (spent : F) (file : List Char) (items : List Item)
    (h : ¬ Taken leak args (replies n) item) :
    (loop leak number args replies n spent file (item :: items)).file = file ∧
      ((loop leak number args replies n spent file (item :: items)).ending = .gone ∨
        (loop leak number args replies n spent file (item :: items)).ending = .raised) := by
  rw [loop]
  cases hrecord : triageOne leak args (replies n) item with
  | none => exact ⟨rfl, Or.inr rfl⟩
  | some record =>
    have hgone : requestFailed record = true := by
      by_contra hgone
      exact h ⟨record, hrecord, by simpa using hgone⟩
    simp only [hgone, if_true]
    exact ⟨trivial, Or.inl trivial⟩

/-- An item has a record if it was answered, and only then; if not, the run stops at it. -/
structure Honest (args : Args F) (items : List Item) (before file : List Char) (out : Outcome) (item : Item)
    (answered : Prop) : Prop where
  appended : Appended file out item ↔ answered
  stopped : ¬ answered → Stopped args items before file out item

omit [Zero F] [Add F] [LE F] [DecidableLE F] in
lemma honest_iff {file : List Char} {out : Outcome} {taken answered : Prop}
    (happended : taken → Appended file out item)
    (hstopped : ¬ taken → Stopped args items before file out item) :
    Honest args items before file out item answered ↔ (taken ↔ answered) := by
  have htaken : Appended file out item ↔ taken := by
    by_cases h : taken
    · exact iff_of_true (happended h) h
    · exact iff_of_false (not_appended (hstopped h).unchanged) h
  constructor
  · exact fun h => htaken.symm.trans h.appended
  · exact fun h => ⟨htaken.trans h, fun hno => hstopped (h.not.mpr hno)⟩

/-- The iterations of `cmd_run`, each by its number, what is spent, what is in the file, and the items that
are left. -/
inductive Iteration (leak : Item → Option Leak) (number : List Char → Option F) (args : Args F)
    (items : List Item) (replies : ℕ → Reply) (before : List Char) :
    ℕ → F → List Char → List Item → Prop
  | start {done : List (List Char)} {spent : F} (hdone : doneIds (splitlines before) = some done)
      (hspent : total number before = some spent) :
      Iteration leak number args items replies before 1 spent before (todo args.source done items)
  | next {n : ℕ} {spent cost : F} {file : List Char} {item : Item} {rest : List Item}
      {record : Members} (h : Iteration leak number args items replies before n spent file (item :: rest))
      (hrecord : triageOne leak args (replies n) item = some record)
      (hgone : requestFailed record = false) (hcost : costOf number (entries record) = some cost)
      (hcap : capReached args (spent + cost) = false) :
      Iteration leak number args items replies before (n + 1) (spent + cost)
        (file ++ recordLine record) rest

/-- **A run ends as each of its iterations does.** -/
theorem Iteration.outcome {replies : ℕ → Reply} {n : ℕ} {spent : F} {file : List Char} {rest : List Item}
    (h : Iteration leak number args items replies before n spent file rest) :
    (cmdRun leak number args items replies before).file =
        (loop leak number args replies n spent file rest).file ∧
      (cmdRun leak number args items replies before).ending =
        (loop leak number args replies n spent file rest).ending := by
  induction h with
  | start hdone hspent =>
    unfold cmdRun
    rw [hdone, hspent]
    exact ⟨rfl, rfl⟩
  | next h hrecord hgone hcost hcap ih =>
    rw [ih.1, ih.2, loop]
    simp only [hrecord, hgone, hcost, hcap, Bool.false_eq_true, if_false, and_self]

/-- **What an iteration finds in the file**: the records of the items it asked for so far, behind what was there. -/
lemma Iteration.records {replies : ℕ → Reply} {n : ℕ} {spent : F} {file : List Char} {rest : List Item}
    (h : Iteration leak number args items replies before n spent file rest) {log : Log recordCodec}
    (hbefore : before = log.text) (hnames : ∀ id ∈ log.names, unhashable id = false) :
    ∃ asked rs, todo args.source log.names items = asked ++ rest ∧ file = (log.addAll rs).text ∧
      rs.map Record.id = asked.map fun item => item.id.text := by
  induction h with
  | start hdone hspent =>
    subst hbefore
    rw [doneIds_text hnames] at hdone
    obtain rfl := Option.some.inj hdone
    exact ⟨[], [], rfl, rfl, rfl⟩
  | @next n spent cost file item rest record h hrecord hgone hcost hcap ih =>
    obtain ⟨asked, rs, htodo, hfile, hids⟩ := ih
    obtain ⟨r, rfl, hid⟩ := triageOne_record hrecord
    refine ⟨asked ++ [item], rs ++ [r], by simpa using htodo, ?_, ?_⟩
    · rw [hfile, Log.text_addAll, Log.text_addAll]
      simp [Log.linesOf, recordLine, recordCodec]
    · rw [List.map_append, List.map_append, hids, List.map_singleton, List.map_singleton, hid]

/-- **An item that is still to be asked for** has no record in the file, if it has its id for itself. -/
lemma Iteration.again {replies : ℕ → Reply} {n : ℕ} {spent : F} {file : List Char} {rest : List Item}
    (h : Iteration leak number args items replies before n spent file (item :: rest)) {log : Log recordCodec}
    (hbefore : before = log.text) (hnames : ∀ id ∈ log.names, unhashable id = false)
    (hdistinct : (items.map fun item => item.id.text).Nodup) :
    ∃ done, doneIds (splitlines file) = some done ∧ item ∈ todo args.source done items := by
  obtain ⟨asked, rs, htodo, hfile, hids⟩ := h.records hbefore hnames
  have hsub : (log.addAll rs).names.Sublist (log.names ++ asked.map fun item => item.id.text) := by
    rw [← hids]
    exact log.sublist_addAll rs
  have hhashable : ∀ id ∈ (log.addAll rs).names, unhashable id = false := by
    intro id hid
    rcases List.mem_append.mp (hsub.subset hid) with hid | hid
    · exact hnames id hid
    · obtain ⟨other, -, rfl⟩ := List.mem_map.mp hid
      exact unhashable_id other
  have hmem : item ∈ todo args.source log.names items := by
    rw [htodo]
    exact List.mem_append_right _ List.mem_cons_self
  obtain ⟨hitem, hwanted⟩ := List.mem_filter.mp hmem
  rw [decide_eq_true_eq] at hwanted
  -- its id is neither that of a record that was there nor that of an item before it
  have hnot : item.id.text ∉ asked.map fun item => item.id.text := by
    have hnodup : ((todo args.source log.names items).map fun item => item.id.text).Nodup :=
      hdistinct.sublist (List.filter_sublist.map _)
    rw [htodo, List.map_append, List.map_cons] at hnodup
    exact fun hid => (List.nodup_append.mp hnodup).2.2 _ hid _ List.mem_cons_self rfl
  refine ⟨_, by rw [hfile]; exact doneIds_text hhashable, List.mem_filter.mpr ⟨hitem, ?_⟩⟩
  rw [decide_eq_true_eq]
  refine ⟨fun hid => ?_, hwanted.2⟩
  rcases List.mem_append.mp (hsub.subset hid) with hid | hid
  · exact hwanted.1 hid
  · exact hnot hid

/-- The call was answered, or failed in a way that stops the run. -/
def CallEnd.Faithful (texts : Texts) : CallEnd → Prop
  | .requestFailed _ => True
  | .raises => True
  | .complete returned => Answered texts returned
  | _ => False

lemma recorded_iff_faithful {texts : Texts} {call : CallEnd} :
    (call.Recorded texts ↔ call.isComplete = true) ↔ call.Faithful texts := by
  cases call <;> simp [CallEnd.Recorded, CallEnd.isComplete, CallEnd.Faithful]

/-- **`post` fails faithfully** unless it takes an answer of the server, a status or a body, for none. -/
theorem faithful_post_iff {texts : Texts} {opened : Opened} : (post texts opened).Faithful texts ↔
    match opened with
    | .httpError _ => False
    | .osError _ => True
    | .other => True
    | .body raw _ => texts.loads raw ≠ .notJson ∧
      ∀ body, texts.loads raw = .value body → Answered texts (.response body) := by
  cases opened with
  | body raw error =>
    unfold post
    cases hloads : texts.loads raw <;> simp [hloads, CallEnd.Faithful]
  | _ => simp [post, CallEnd.Faithful]

/-- **`triage_claude` fails faithfully** only by an exception that it does not catch. -/
theorem faithful_triageClaude_iff {texts : Texts} {ran : Ran} : (triageClaude texts ran).Faithful texts ↔
    match ran with
    | .failed _ => False
    | .other => True
    | .stdout printed _ => texts.loads printed ≠ .notJson ∧
      ∀ out, texts.loads printed = .value out → Answered texts (.output out) := by
  cases ran with
  | stdout printed error =>
    unfold triageClaude
    cases hloads : texts.loads printed <;> simp [hloads, CallEnd.Faithful]
  | _ => simp [triageClaude, CallEnd.Faithful]

/-- **`cmd_run` keeps a record exactly of what was answered**, at an iteration whose call failed in a way
that stops it, or gave a reply that `triage_one` makes a record of. -/
theorem kept_iff (texts : Texts) (calls : ℕ → Value × CallEnd) {n : ℕ} {spent : F} {file : List Char}
    {rest : List Item}
    (h : Iteration leak number args items (fun k => (calls k).2.reply texts (calls k).1) before n spent
      file (item :: rest)) :
    Honest args items before file
        (cmdRun leak number args items (fun k => (calls k).2.reply texts (calls k).1) before) item
        (leak item ≠ none ∨ (calls n).2.isComplete = true) ↔
      (leak item = none → (calls n).2.Faithful texts) := by
  obtain ⟨hfile, hending⟩ := h.outcome
  have happended : Taken leak args ((calls n).2.reply texts (calls n).1) item →
      Appended file (cmdRun leak number args items (fun k => (calls k).2.reply texts (calls k).1)
        before) item := by
    intro htaken
    unfold Appended
    rw [hfile]
    exact loop_appended _ n spent file rest htaken
  have hstopped : ¬ Taken leak args ((calls n).2.reply texts (calls n).1) item →
      Stopped args items before file (cmdRun leak number args items
        (fun k => (calls k).2.reply texts (calls k).1) before) item := by
    intro htaken
    obtain ⟨hsame, hgone⟩ : (loop leak number args (fun k => (calls k).2.reply texts (calls k).1)
        n spent file (item :: rest)).file = file ∧ _ := loop_stopped _ n spent file rest htaken
    refine ⟨hfile.trans hsame, by rwa [hending], fun log hbefore hnames hdistinct => ?_⟩
    rw [hfile, hsame]
    exact h.again hbefore hnames hdistinct
  rw [honest_iff happended hstopped, taken_iff, ← recorded_iff_faithful]
  cases leak item <;> simp

end

/-- A server that is not there. -/
def unreachable (_ : ℕ) : Value × CallEnd :=
  (plainLatency, post plain (.osError ⟨constant "\"request failed: refused\"", by decide⟩))

/-- A server that is busy. -/
def busy (_ : ℕ) : Value × CallEnd :=
  (plainLatency, post plain (.httpError ⟨constant "\"HTTP 503: busy\"", by decide⟩))

/-- A run on one item, with the server not there. -/
theorem kept_iff_unreachable :
    Honest plainArgs [plainItem] [] [] (cmdRun (fun _ => none) (fun _ => none) plainArgs [plainItem]
        (fun k => (unreachable k).2.reply plain (unreachable k).1) []) plainItem
        ((none : Option Leak) ≠ none ∨ (unreachable 1).2.isComplete = true) ↔
      ((none : Option Leak) = none → (unreachable 1).2.Faithful plain) := by
  have hdone : doneIds (splitlines []) = some [] := rfl
  have hspent : total (fun _ => none) [] = some 0 := rfl
  have hstart : Iteration (fun _ => none) (fun _ => none) plainArgs [plainItem]
      (fun k => (unreachable k).2.reply plain (unreachable k).1) [] 1 0 [] [plainItem] :=
    .start hdone hspent
  exact kept_iff plain unreachable hstart

/-- **An outage is recorded as an answer**: the status 503 leaves a record. -/
theorem outage_is_recorded :
    Appended [] (cmdRun (fun _ => none) (fun _ => none) plainArgs [plainItem]
        (fun k => (busy k).2.reply plain (busy k).1) []) plainItem ∧
      ¬ ((none : Option Leak) ≠ none ∨ (busy 1).2.isComplete = true) := by
  refine ⟨?_, by simp [busy, post, CallEnd.isComplete]⟩
  have hrun : (cmdRun (fun _ => none) (fun _ => none) plainArgs [plainItem]
      (fun k => (busy k).2.reply plain (busy k).1) []) = loop (fun _ => none) (fun _ => none) plainArgs
        (fun k => (busy k).2.reply plain (busy k).1) 1 0 [] [plainItem] := rfl
  rw [hrun]
  exact loop_appended _ 1 0 [] [] (taken_failed rfl (List.prefix_refl _) fun _ => rfl)

end CSecureBuild.Harness.Outage
