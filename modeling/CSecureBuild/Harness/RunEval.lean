import CSecureBuild.PyLib.Json
import CSecureBuild.PyLib.Text

/-!
`llm-eval/harness/run_eval.py`: the record `triage_one` makes of what the backend gives, and `cmd_run`,
which reads the output file to see what is done, asks for the other items and appends a record line
for each.

The backend is what it gives for each item, `scrub` is known by what it raises, and the amounts of
money are of any type whose values `number` reads from the texts of a JSON value (`none` where Python
cannot add the value to a float).
-/

namespace CSecureBuild.Harness.RunEval

open CSecureBuild.PyLib.Json CSecureBuild.PyLib.Text

/-! ### Records -/

/-- A key of a record. -/
def key (name : String) (nonempty : name.toList ≠ [] := by simp)
    (plain : ∀ c ∈ name.toList, 95 ≤ c.toNat ∧ c.toNat ≤ 122 := by simp) : Key :=
  ⟨name.toList, nonempty, plain⟩

/-- A value that the program writes down. -/
def constant (text : String) (read : accepts (run (.value, []) text.toList) = true := by decide)
    (tight : trim text.toList = text.toList := by decide)
    (printable : ∀ c ∈ text.toList, 32 ≤ c.toNat ∧ c.toNat < 128 := by simp) : Value :=
  ⟨text.toList, read, tight, printable⟩

/-- `null` -/
def null : Value := constant "null"

/-- A boolean. -/
def flag (b : Bool) : Value := if b then constant "true" else constant "false"

/-- An item: a finding and its label. Its id is a string. -/
structure Item where
  id : Value
  id_string : id.text.head? = some '"'
  label : Value
  source : Value

/-- The error of a record whose item `scrub` refuses, with the text of the `LeakError`. -/
abbrev Leak := { error : Value // "\"leak: ".toList <+: error.text }

/-- `--source`. -/
inductive Source where
  | all
  | juliet
  | cSecureBuild
  deriving DecidableEq

/-- A source, as an item names it. -/
def Source.text : Source → List Char
  | .all => "\"all\"".toList
  | .juliet => "\"juliet\"".toList
  | .cSecureBuild => "\"c-secure-build\"".toList

/-- The arguments that a record or the loop depends on. -/
structure Args (F : Type) where
  model : Value
  run : Value
  thinking : Value
  maxCostUsd : Option F
  source : Source

/-- An answer that `schema_valid` accepts. -/
structure Answer where
  verdict : Value
  confidence : Value
  cwe : Value
  reason : Value

/-- What `triage_claude` gives besides the answer. -/
inductive Info where
  /-- The command failed, or it printed no JSON. -/
  | failed (error : Value)
  | reported (promptTokens completionTokens costUsd finishReason : Value) (error : Option Value)

/-- What `triage_one` reads of a response of the server, besides the answer. -/
structure Usage where
  finishReason : Value
  promptTokens : Value
  completionTokens : Value
  reasoningTokens : Value
  reasoningChars : Value
  tokensPerS : Value
  rawContent : Value

/-- What the backend makes of a request. -/
inductive Reply where
  /-- An exception that nothing catches. -/
  | raises
  /-- `post` gives an error, or the response has not the shape of one. -/
  | failed (latency error : Value)
  /-- A response, whose content is JSON or not. -/
  | answered (latency : Value) (answer : Option Answer) (direct : Bool) (usage : Usage)
  | claude (latency : Value) (info : Info) (answer : Option Answer)

/-- The members of an answer, `None` where it is not valid. -/
def answerMembers (answer : Option Answer) : Members :=
  let field (get : Answer → Value) : Value := (answer.map get).getD null
  [(key "verdict", field Answer.verdict), (key "confidence", field Answer.confidence),
    (key "cwe", field Answer.cwe), (key "reason", field Answer.reason)]

/-- The members that `triage_claude` reports. -/
def Info.members : Info → Members
  | .failed error => [(key "error", error)]
  | .reported promptTokens completionTokens costUsd finishReason error =>
    [(key "prompt_tokens", promptTokens), (key "completion_tokens", completionTokens),
      (key "cost_usd", costUsd), (key "finish_reason", finishReason)] ++
    (error.map fun e => (key "error", e)).toList

/-- `triage_claude` reports an error. -/
def Info.hasError : Info → Bool
  | .failed _ => true
  | .reported _ _ _ _ error => error.isSome

/-- The first members of every record. -/
def header {F : Type} (args : Args F) (item : Item) : Members :=
  [(key "id", item.id), (key "label", item.label), (key "model", args.model),
    (key "run", args.run), (key "thinking", args.thinking)]

/-- The members that a reply adds. -/
def Reply.members : Reply → Option Members
  | .raises => none
  | .failed latency error =>
    some [(key "latency_s", latency), (key "error", error), (key "schema_valid", flag false),
      (key "verdict", null)]
  | .answered latency answer direct usage =>
    some ((key "latency_s", latency) :: answerMembers answer ++
      [(key "schema_valid", flag answer.isSome),
        (key "parse_method", if direct then constant "\"direct\"" else constant "\"none\""),
        (key "finish_reason", usage.finishReason), (key "prompt_tokens", usage.promptTokens),
        (key "completion_tokens", usage.completionTokens),
        (key "reasoning_tokens", usage.reasoningTokens),
        (key "reasoning_chars", usage.reasoningChars), (key "tokens_per_s", usage.tokensPerS),
        (key "raw_content", usage.rawContent)] ++
      if answer.isSome then []
      else [(key "error", if direct then constant "\"schema invalid (parse: direct)\""
        else constant "\"schema invalid (parse: none)\"")])
  | .claude latency info answer =>
    some ((key "latency_s", latency) :: info.members ++
      [(key "schema_valid", flag answer.isSome), (key "parse_method", constant "\"structured\"")] ++
      answerMembers answer ++
      if answer.isSome || info.hasError then []
      else [(key "error", constant "\"schema invalid\"")])

section

variable {F : Type} (leak : Item → Option Leak)

/-- `triage_one`: the record of an item, unless an exception stops the program. -/
def triageOne (args : Args F) (reply : Reply) (item : Item) : Option Members :=
  match leak item with
  | some error => some (header args item ++ [(key "error", error.1), (key "schema_valid", flag false),
      (key "verdict", null)])
  | none => reply.members.map (header args item ++ ·)

/-- The server is gone. -/
def requestFailed (record : Members) : Bool :=
  match get (entries record) "error".toList with
  | some error => "\"request failed".toList.isPrefixOf error
  | none => false

/-! ### Costs -/

variable [Zero F] [Add F] (number : List Char → Option F)

/-- The values besides zero that count as false. -/
def falsy : List (List Char) :=
  ["null".toList, "false".toList, "\"\"".toList, "[]".toList, "\x7b\x7d".toList]

/-- `members.get("cost_usd") or 0.0`. -/
def costOf (members : List (List Char × List Char)) : Option F :=
  match get members "cost_usd".toList with
  | none => some 0
  | some text => if text ∈ falsy then some 0 else number text

/-! ### The output file -/

/-- A record line. -/
def recordLine (record : Members) : List Char := dumps record ++ ['\n']

/-- A value that a set cannot hold. -/
def unhashable (text : List Char) : Bool := text.head? = some '[' || text.head? = some '{'

/-- The ids that are done, over the lines of the output file. -/
def doneIds : List (List Char) → Option (List (List Char))
  | [] => some []
  | line :: lines =>
    match loads line with
    | .failed => doneIds lines
    | .scalar => none
    | .object members =>
      match get members "id".toList with
      | none => doneIds lines
      | some id => if unhashable id then none else (doneIds lines).map (id :: ·)

/-- The amount that is spent, over the lines of the output file. -/
def spentOn (spent : F) : List (List Char) → Option F
  | [] => some spent
  | line :: lines =>
    match loads line with
    | .failed => spentOn spent lines
    | .scalar => none
    | .object members =>
      match costOf number members with
      | none => none
      | some cost => spentOn (spent + cost) lines

/-- The sum of `cost_usd` over the records in an output file. -/
def total (file : List Char) : Option F := spentOn number 0 (splitlines file)

/-- The items that are left to ask for. -/
def todo (source : Source) (done : List (List Char)) (items : List Item) : List Item :=
  items.filter fun item =>
    item.id.text ∉ done ∧ (source = .all ∨ item.source.text = source.text)

/-! ### The loop -/

/-- How an invocation ends: at the end of the loop, with the server gone (2), at the cost cap (3), or
with an exception. -/
inductive Ending where
  | finished
  | gone
  | capped
  | raised
  deriving DecidableEq

/-- What an invocation leaves behind. -/
structure Outcome where
  /-- The output file. -/
  file : List Char
  /-- What was in the output file at each request. -/
  requests : List (List Char)
  ending : Ending

variable [LE F] [DecidableLE F]

/-- The cost cap is reached. -/
def capReached (args : Args F) (spent : F) : Bool :=
  match args.maxCostUsd with
  | some cap => cap ≤ spent
  | none => false

/-- The loop of `cmd_run`, from the `n`-th item. -/
def loop (args : Args F) (replies : ℕ → Reply) :
    ℕ → F → List Char → List Item → Outcome
  | _, _, file, [] => ⟨file, [], .finished⟩
  | n, spent, file, item :: items =>
    let asked := if (leak item).isNone then [file] else []
    match triageOne leak args (replies n) item with
    | none => ⟨file, asked, .raised⟩
    | some record =>
      if requestFailed record then ⟨file, asked, .gone⟩
      else
        match costOf number (entries record) with
        | none => ⟨file ++ recordLine record, asked, .raised⟩
        | some cost =>
          if capReached args (spent + cost) then ⟨file ++ recordLine record, asked, .capped⟩
          else
            let rest := loop args replies (n + 1) (spent + cost) (file ++ recordLine record) items
            ⟨rest.file, asked ++ rest.requests, rest.ending⟩

/-- `cmd_run`, with what is in the output file, which is empty where there is none. -/
def cmdRun (args : Args F) (items : List Item) (replies : ℕ → Reply) (file : List Char) : Outcome :=
  match doneIds (splitlines file), total number file with
  | some done, some spent => loop leak number args replies 1 spent file (todo args.source done items)
  | _, _ => ⟨file, [], .raised⟩

end

end CSecureBuild.Harness.RunEval
