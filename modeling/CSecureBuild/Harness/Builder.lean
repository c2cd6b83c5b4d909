import CSecureBuild.Harness.Markers
import CSecureBuild.Harness.Select
import CSecureBuild.Lib.FirstCome

/-!
`cmd_items` of `llm-eval/harness/build_v2.py`: what it makes of each finding of the reports, and the items
it keeps of all of them. A finding with a key that was seen is a duplicate, and a key counts as seen from
the first finding that gets as far, whatever becomes of it.

What the program reads is a work directory, and the generators of `prompt_code` are given by their seeds,
which are the keys.
-/

namespace CSecureBuild.Harness.Builder

open CSecureBuild.PyLib.Cells CSecureBuild.PyLib.Regex CSecureBuild.PyLib.Text
open CSecureBuild.PyLib.Containers CSecureBuild.Harness.Scrub CSecureBuild.Harness.Items
open CSecureBuild.Harness.Markers CSecureBuild.Harness.Select CSecureBuild.Lib.FirstCome

/-! ### Findings and files -/

/-- A finding, as `sarif_findings` gives it. -/
structure Finding where
  tool : List Char
  ruleId : List Char
  ruleCwes : List (List Char)
  message : List Char
  uri : List Char
  startLine : ℕ
  endLine : ℕ
  deriving DecidableEq

/-- The parts of the data. -/
inductive Split where
  | test
  | train
  deriving DecidableEq

/-- A source file: its name, the name of its directory, its path from the work directory if it lies there,
and its text. -/
structure SourceFile where
  name : List Char
  dir : List Char
  relative : Option (List Char)
  text : List Char

/-- The work directory: the file at a URI, and `split.json`. -/
structure Work where
  file : List Char → Option SourceFile
  split : List Char → Option Split

/-- The strata. -/
inductive Stratum where
  | tp
  | fpPaired
  | fpOther
  | fpOfftarget
  deriving DecidableEq

/-- What is read of an item. -/
structure Item where
  key : List Char
  family : List Char
  stratum : Stratum
  tool : List Char
  ruleId : List Char
  cwe : List Char
  message : List Char
  file : List Char
  startLine : ℤ
  endLine : ℤ
  codeContext : List Char

/-- `context_start_line`, of every item. -/
def contextStartLine : ℕ := 1

/-- What `select` reads of an item. -/
def Item.slot (it : Item) : Slot := ⟨it.key, it.cwe, it.ruleId, it.family⟩

/-! ### What becomes of a finding -/

section

variable (u : Unicode)

/-- `FLOW` -/
def FLOW : Re :=
  .seq (.chr (· = '_')) (.seq (.group 1 (.alt
    (.seq (.chr (· = '0')) (.chr fun c => '1' ≤ c && c ≤ '9'))
    (.seq (.chr (· = '1')) (.chr fun c => '0' ≤ c && c ≤ '8'))))
    (.seq (.lit ".c".toList) textEnd))

/-- `family` -/
def family (name : List Char) : List Char := FLOW.sub (fun _ => []) name

/-- `SPLIT` -/
def SPLIT : Re :=
  .seq (.star true (.chr u.word)) (.seq (.oneOf [.lit "Sink".toList, .lit "Source".toList,
    .seq (.chr fun c => c = 'H' || c = 'h') (.lit "elper".toList)]) (.star true (.chr u.word)))

/-- The function is a sink, source or helper, or calls one. -/
def splitFlow (name : List Char) (body : List (List Char)) : Bool :=
  ((Re.seq (SPLIT u) (.look fun _ after => after = [])).matchStart name).isSome ||
    ((Re.seq (SPLIT u) (.seq (.star true (.chr u.space)) (.chr (· = '(')))).search
      (body.drop 1).flatten).isSome

/-- `ARRAY_DECL` -/
def ARRAY_DECL : Re :=
  .seq textStart (.seq (.star true (.chr u.space))
    (.seq (.star true (.seq (.oneOf [.lit "const".toList, .lit "unsigned".toList, .lit "signed".toList,
      .lit "static".toList, .lit "struct".toList]) (.plus true (.chr u.space))))
    (.seq (.plus true (.chr u.word)) (.seq (.plus true (.chr fun c => u.space c || c = '*'))
    (.seq (.plus true (.chr u.word)) (.seq (.star true (.chr u.space)) (.seq (.chr (· = '['))
    (.seq (.star true (.chr (· ≠ ']'))) (.seq (.chr (· = ']')) (.seq (.star true (.chr u.space))
    (.seq (.opt (.seq (.chr (· = '=')) (.star true (.chr (· ≠ ';'))))) (.chr (· = ';')))))))))))))

/-- The marker says that there is a flaw. -/
def isFlaw (marker : Option (List Char)) : Bool :=
  marker = some "FLAW".toList || marker = some "POTENTIAL FLAW".toList

/-- `classify` -/
def classify (label : Label) (inFamily : Bool) (marker : Option (List Char)) (line : List Char) :
    Option Stratum :=
  if marker = some "INCIDENTAL".toList then none
  else if label = .tp ∧ ((ARRAY_DECL u).matchStart line).isSome = true then none
  else if inFamily = false then
    if isFlaw marker = true ∧ label = .tp then none else some .fpOfftarget
  else if label = .tp then if isFlaw marker then some .tp else none
  else if marker = some "POTENTIAL FLAW".toList ∨ marker = some "FIX".toList then some .fpPaired
  else some .fpOther

/-- The CWEs of the family of buffer overflows. -/
def overflowFamily : List (List Char) :=
  ["119".toList, "120".toList, "121".toList, "122".toList, "125".toList, "126".toList, "127".toList,
    "131".toList, "170".toList, "787".toList, "788".toList, "805".toList, "806".toList]

/-- `TARGET_FAMILY` -/
def TARGET_FAMILY : List (List Char × List (List Char)) :=
  [("121".toList, overflowFamily), ("190".toList, ["190".toList, "128".toList, "680".toList]),
    ("134".toList, ["134".toList]), ("415".toList, ["415".toList]),
    ("416".toList, ["416".toList, "825".toList]),
    ("78".toList, ["78".toList, "77".toList, "88".toList]), ("122".toList, overflowFamily)]

/-- The key of a finding in a file. -/
def keyOf (file : SourceFile) (f : Finding) : List Char :=
  file.name ++ ':' :: (toString f.startLine).toList ++ ':' :: f.ruleId

/-- What becomes of the first finding with a key. -/
inductive Fate where
  /-- Its message has a label word. -/
  | leaks
  /-- The program raises, or draws names without an end. -/
  | fails
  | kept (split : Split) (item : Item)

/-- What becomes of a finding. -/
inductive Judgement where
  | dropped
  | raises
  /-- It becomes something if its key was not seen. -/
  | reached (key : List Char) (fate : Fate)

variable (work : Work) (rng : List Char → ℕ → Fin SYLLABLES.length) (tries : ℕ)

/-- What becomes of a finding in a function with a key that was not seen. -/
def fateOf (file : SourceFile) (func : Function) (stratum : Stratum) (f : Finding) : Fate :=
  let lines := splitlinesKeep file.text
  let preamble := preambleOf u (functionSpans u file.text) lines
  match promptCode u (rng (keyOf file f)) tries preamble (bodyOf lines func) with
  | none => .fails
  | some (code, trimmed) =>
    let offset : ℤ := preamble.length + 1 - trimmed
    if ((LEAK_WORDS u).search f.message).isSome then .leaks
    else
      match work.split (family file.name), file.relative with
      | some split, some path =>
        .kept split
          { key := keyOf file f
            family := family file.name
            stratum
            tool := f.tool
            ruleId := f.ruleId
            cwe := file.dir
            message := f.message
            file := path
            startLine := offset + f.startLine - func.start + 1
            endLine := offset + f.endLine - func.start + 1
            codeContext := code }
      | _, _ => .fails

/-- What becomes of a finding in a file. -/
def judgeIn (file : SourceFile) (f : Finding) : Judgement :=
  let lines := splitlinesKeep file.text
  match (functionSpans u file.text).find? fun s => s.start ≤ f.startLine && f.startLine ≤ s.end_ with
  | none => .dropped
  | some func =>
    match julietLabel u func.name with
    | none => .dropped
    | some label =>
      if splitFlow u func.name (bodyOf lines func) then .dropped
      else
        match TARGET_FAMILY.lookup file.dir with
        | none => .raises
        | some target =>
          let marker := markerAbove u lines (f.startLine - 1) (func.start - 1)
          match classify u label (f.ruleCwes.any (· ∈ target)) marker (lines.getD (f.startLine - 1) []) with
          | none => .dropped
          | some stratum => .reached (keyOf file f) (fateOf u work rng tries file func stratum f)

/-- What becomes of a finding. -/
def judge (f : Finding) : Judgement :=
  match work.file f.uri with
  | none => .dropped
  | some file => judgeIn u work rng tries file f

/-! ### `cmd_items` -/

/-- The items, by part and stratum. -/
abbrev Pools := Split → Stratum → List Item

/-- What the loop over the findings changes. -/
structure Progress where
  seen : List (List Char)
  pools : Pools

/-- An item goes to its pool. -/
def Pools.add (pools : Pools) (split : Split) (item : Item) : Pools := fun part stratum =>
  if part = split ∧ stratum = item.stratum then pools part stratum ++ [item] else pools part stratum

/-- The first finding with a key. -/
def Progress.take (s : Progress) (key : List Char) : Fate → Option Progress
  | .leaks => some ⟨key :: s.seen, s.pools⟩
  | .fails => none
  | .kept split item => some ⟨key :: s.seen, s.pools.add split item⟩

/-- One finding. -/
def visit (s : Progress) (f : Finding) : Option Progress :=
  match judge u work rng tries f with
  | .dropped => some s
  | .raises => none
  | .reached key fate => if key ∈ s.seen then some s else s.take key fate

/-- The pools, from the reports. -/
def poolsOf (reports : List (List Finding)) : Option Pools :=
  (reports.flatten.foldlM (visit u work rng tries) ⟨[], fun _ _ => []⟩).map Progress.pools

/-- `TEST_QUOTA` -/
def TEST_QUOTA : List (Stratum × ℕ) :=
  [(.tp, 50), (.fpPaired, 35), (.fpOther, 15), (.fpOfftarget, 20)]

/-- The items for `test.jsonl`. -/
def testItems (seeded : Shuffle) (share : ℕ → ℕ) (pools : Pools) : Option (List Item) :=
  (TEST_QUOTA.mapM fun (stratum, quota) =>
    select Item.slot seeded share (pools .test stratum) quota).map List.flatten

/-- The items for `train.jsonl`, by the names of the strata. -/
def trainItems (pools : Pools) : List Item :=
  pools .train .fpOfftarget ++ pools .train .fpOther ++ pools .train .fpPaired ++ pools .train .tp

/-- `cmd_items`: the items for `test.jsonl` and for `train.jsonl`. -/
def cmdItems (seeded : Shuffle) (share : ℕ → ℕ) (reports : List (List Finding)) :
    Option (List Item × List Item) := do
  let pools ← poolsOf u work rng tries reports
  let test ← testItems seeded share pools
  return (test, trainItems pools)

/-! ### What the loop keeps -/

/-- The key of a finding that gets as far, and what becomes of it if it is the first. -/
def entry (f : Finding) : Option (List Char × Fate) :=
  match judge u work rng tries f with
  | .reached key fate => some (key, fate)
  | _ => none

/-- It makes the program fail. -/
def Fate.isFailure : Fate → Bool
  | .fails => true
  | _ => false

/-- The item that is kept for a pool. -/
def Fate.itemFor (part : Split) (stratum : Stratum) : Fate → Option Item
  | .kept split item => if part = split ∧ stratum = item.stratum then some item else none
  | _ => none

/-- The program raises at some finding whatever was seen. -/
def RaisesAt (findings : List Finding) : Prop := ∃ f ∈ findings, judge u work rng tries f = .raises

variable {u work rng tries}

lemma entry_eq_some {f : Finding} {key : List Char} {fate : Fate} :
    entry u work rng tries f = some (key, fate) ↔ judge u work rng tries f = .reached key fate := by
  unfold entry
  cases judge u work rng tries f <;> simp

lemma entry_eq_none {f : Finding} : entry u work rng tries f = none ↔
    judge u work rng tries f = .dropped ∨ judge u work rng tries f = .raises := by
  unfold entry
  cases judge u work rng tries f <;> simp

lemma take_of_failure {s : Progress} {key : List Char} {fate : Fate} (h : fate.isFailure = true) :
    s.take key fate = none := by
  cases fate <;> first | rfl | cases h

lemma take_of_not_failure (s : Progress) (key : List Char) {fate : Fate} (h : fate.isFailure = false) :
    ∃ pools : Pools, s.take key fate = some ⟨key :: s.seen, pools⟩ ∧
      ∀ part stratum, pools part stratum =
        s.pools part stratum ++ (fate.itemFor part stratum).toList := by
  cases fate with
  | leaks => exact ⟨s.pools, rfl, by simp [Fate.itemFor]⟩
  | fails => cases h
  | kept split item =>
    refine ⟨s.pools.add split item, rfl, fun part stratum => ?_⟩
    simp only [Pools.add, Fate.itemFor]
    split_ifs <;> simp

lemma visit_of_dropped {s : Progress} {f : Finding} (h : judge u work rng tries f = .dropped) :
    visit u work rng tries s f = some s := by
  unfold visit
  rw [h]

lemma visit_of_reached {s : Progress} {f : Finding} {key : List Char} {fate : Fate}
    (h : judge u work rng tries f = .reached key fate) :
    visit u work rng tries s f = if key ∈ s.seen then some s else s.take key fate := by
  unfold visit
  rw [h]

/-- **The loop fails** at a finding that raises, and where the first finding with a key fails. -/
lemma visits_fail {findings : List Finding} {s : Progress}
    (h : RaisesAt u work rng tries findings ∨
      ∃ e ∈ firsts s.seen (findings.filterMap (entry u work rng tries)), e.2.isFailure = true) :
    findings.foldlM (visit u work rng tries) s = none := by
  induction findings generalizing s with
  | nil => obtain ⟨f, hf, -⟩ | ⟨e, he, -⟩ := h <;> cases ‹_ ∈ _›
  | cons f fs ih =>
    rw [List.foldlM_cons]
    cases hjudge : judge u work rng tries f with
    | dropped =>
      -- a finding that is dropped is not the one that raises
      rw [List.filterMap_cons_none (entry_eq_none.mpr (Or.inl hjudge))] at h
      rw [visit_of_dropped hjudge]
      refine ih (h.imp_left ?_)
      rintro ⟨g, hg, hraises⟩
      refine ⟨g, ?_, hraises⟩
      refine (List.mem_cons.mp hg).resolve_left ?_
      rintro rfl
      cases hjudge.symm.trans hraises
    | raises =>
      -- the look at the file raises
      unfold visit
      rw [hjudge]
      rfl
    | reached key fate =>
      have hrest : RaisesAt u work rng tries (f :: fs) → RaisesAt u work rng tries fs := by
        rintro ⟨g, hg, hraises⟩
        refine ⟨g, (List.mem_cons.mp hg).resolve_left ?_, hraises⟩
        rintro rfl
        cases hjudge.symm.trans hraises
      rw [List.filterMap_cons_some (entry_eq_some.mpr hjudge), firsts] at h
      by_cases hseen : key ∈ s.seen
      · -- a key that was seen is passed over
        rw [if_pos hseen] at h
        rw [visit_of_reached hjudge, if_pos hseen]
        exact ih (h.imp_left hrest)
      · -- a new key: its item is made, or that raises
        rw [if_neg hseen] at h
        rw [visit_of_reached hjudge, if_neg hseen]
        cases hfate : fate.isFailure with
        | true =>
          rw [take_of_failure hfate]
          rfl
        | false =>
          obtain ⟨pools, htake, -⟩ := take_of_not_failure s key hfate
          rw [htake]
          refine ih (h.imp hrest ?_)
          rintro ⟨e, he, hfails⟩
          refine ⟨e, ?_, hfails⟩
          refine (List.mem_cons.mp he).resolve_left ?_
          rintro rfl
          cases hfate.symm.trans hfails

/-- **The loop keeps the items of the findings that come first.** -/
lemma visits_keep {findings : List Finding} {s : Progress}
    (hraises : ¬ RaisesAt u work rng tries findings)
    (hfails : ∀ e ∈ firsts s.seen (findings.filterMap (entry u work rng tries)),
      e.2.isFailure = false) :
    ∃ seen, findings.foldlM (visit u work rng tries) s = some ⟨seen, fun part stratum =>
      s.pools part stratum ++ (firsts s.seen (findings.filterMap (entry u work rng tries))).filterMap
        fun e => e.2.itemFor part stratum⟩ := by
  induction findings generalizing s with
  | nil => exact ⟨s.seen, by simp [firsts]⟩
  | cons f fs ih =>
    have hrest : ¬ RaisesAt u work rng tries fs :=
      fun h => hraises (h.imp fun g hg => ⟨List.mem_cons_of_mem f hg.1, hg.2⟩)
    rw [List.foldlM_cons]
    cases hjudge : judge u work rng tries f with
    | dropped =>
      rw [List.filterMap_cons_none (entry_eq_none.mpr (Or.inl hjudge))] at hfails ⊢
      rw [visit_of_dropped hjudge]
      exact ih hrest hfails
    | raises => exact absurd ⟨f, List.mem_cons_self, hjudge⟩ hraises
    | reached key fate =>
      rw [List.filterMap_cons_some (entry_eq_some.mpr hjudge), firsts] at hfails ⊢
      by_cases hseen : key ∈ s.seen
      · -- a key that was seen adds nothing
        rw [if_pos hseen] at hfails ⊢
        rw [visit_of_reached hjudge, if_pos hseen]
        exact ih hrest hfails
      · -- a new key adds its item to its pool
        rw [if_neg hseen] at hfails ⊢
        have hfate : fate.isFailure = false := hfails _ List.mem_cons_self
        obtain ⟨pools, htake, hpools⟩ := take_of_not_failure s key hfate
        obtain ⟨seen, hrun⟩ := ih (s := ⟨key :: s.seen, pools⟩) hrest
          fun e he => hfails e (List.mem_cons_of_mem _ he)
        rw [visit_of_reached hjudge, if_neg hseen, htake]
        refine ⟨seen, hrun.trans ?_⟩
        congr 2
        funext part stratum
        simp only [hpools, List.append_assoc, List.filterMap_cons]
        cases fate.itemFor part stratum <;> rfl

variable (u work rng tries) in
/-- The items of the findings that come first. -/
def keptPools (reports : List (List Finding)) : Pools := fun part stratum =>
  (firsts [] (reports.flatten.filterMap (entry u work rng tries))).filterMap
    fun e => e.2.itemFor part stratum

lemma mem_firsts_entries {reports : List (List Finding)} {key : List Char} {fate : Fate} :
    (key, fate) ∈ firsts [] (reports.flatten.filterMap (entry u work rng tries)) ↔
      first (entry u work rng tries) reports key = some fate := by
  rw [mem_firsts]
  exact and_iff_right List.not_mem_nil

/-- **The program fails** at a finding that raises, and where the first finding with a key fails. -/
theorem poolsOf_fail {reports : List (List Finding)} (h : RaisesAt u work rng tries reports.flatten ∨
    Fails (entry u work rng tries) Fate.isFailure reports) : poolsOf u work rng tries reports = none := by
  unfold poolsOf
  rw [visits_fail, Option.map_none]
  refine h.imp_right ?_
  rintro ⟨key, fate, hfirst, hfails⟩
  exact ⟨(key, fate), mem_firsts_entries.mpr hfirst, hfails⟩

/-- **The pools hold the items of the findings that come first.** -/
theorem poolsOf_keep {reports : List (List Finding)}
    (hraises : ¬ RaisesAt u work rng tries reports.flatten)
    (hfails : ¬ Fails (entry u work rng tries) Fate.isFailure reports) :
    poolsOf u work rng tries reports = some (keptPools u work rng tries reports) := by
  have hspared : ∀ e ∈ firsts [] (reports.flatten.filterMap (entry u work rng tries)),
      e.2.isFailure = false := by
    rintro ⟨key, fate⟩ he
    by_contra hfate
    exact hfails ⟨key, fate, mem_firsts_entries.mp he, by simpa using hfate⟩
  obtain ⟨seen, hrun⟩ := visits_keep (s := ⟨[], fun _ _ => []⟩) hraises hspared
  unfold poolsOf
  rw [hrun]
  rfl

lemma mem_keptPools {reports : List (List Finding)} {part : Split} {stratum : Stratum} {item : Item} :
    item ∈ keptPools u work rng tries reports part stratum ↔ ∃ key fate,
      first (entry u work rng tries) reports key = some fate ∧ fate.itemFor part stratum = some item := by
  unfold keptPools
  simp only [List.mem_filterMap, Prod.exists, mem_firsts_entries]

lemma itemFor_eq_some {part : Split} {stratum : Stratum} {fate : Fate} {item : Item} :
    fate.itemFor part stratum = some item ↔ fate = .kept part item ∧ stratum = item.stratum := by
  cases fate with
  | kept split it =>
    simp only [Fate.itemFor, Option.ite_none_right_eq_some, Option.some.injEq, Fate.kept.injEq]
    constructor
    · rintro ⟨⟨rfl, rfl⟩, rfl⟩
      exact ⟨⟨rfl, rfl⟩, rfl⟩
    · rintro ⟨⟨rfl, rfl⟩, rfl⟩
      exact ⟨⟨rfl, rfl⟩, rfl⟩
  | _ => simp [Fate.itemFor]

/-- **What gets as far** is a finding in a function of a file that is there. -/
theorem judge_reached {f : Finding} {key : List Char} {fate : Fate}
    (h : judge u work rng tries f = .reached key fate) :
    ∃ file func stratum, work.file f.uri = some file ∧
      (functionSpans u file.text).find? (fun s => s.start ≤ f.startLine && f.startLine ≤ s.end_) = some func ∧
      key = keyOf file f ∧ fate = fateOf u work rng tries file func stratum f := by
  unfold judge at h
  split at h
  · cases h
  next file hfile =>
    unfold judgeIn at h
    simp only at h
    split at h
    · cases h
    next func hfunc =>
      split at h
      · cases h
      split at h
      · cases h
      split at h
      · cases h
      split at h
      · cases h
      next stratum _ =>
        cases h
        exact ⟨file, func, stratum, hfile, hfunc, rfl, rfl⟩

/-- **What a kept item is made of.** -/
theorem fateOf_kept {file : SourceFile} {func : Function} {stratum : Stratum} {f : Finding}
    {split : Split} {item : Item} (h : fateOf u work rng tries file func stratum f = .kept split item) :
    ((LEAK_WORDS u).search f.message).isSome = false ∧ item.key = keyOf file f ∧
      item.tool = f.tool ∧ item.ruleId = f.ruleId ∧ item.message = f.message ∧
      ∃ trimmed, promptCode u (rng (keyOf file f)) tries
        (preambleOf u (functionSpans u file.text) (splitlinesKeep file.text))
        (bodyOf (splitlinesKeep file.text) func) = some (item.codeContext, trimmed) := by
  unfold fateOf at h
  simp only at h
  split at h
  · cases h
  next code trimmed hcode =>
    split_ifs at h with hleak
    split at h
    · cases h
      exact ⟨by simpa using hleak, rfl, rfl, rfl, rfl, trimmed, hcode⟩
    · cases h

lemma key_of_entry {f : Finding} {key : List Char} {split : Split} {item : Item}
    (h : entry u work rng tries f = some (key, .kept split item)) : item.key = key := by
  obtain ⟨file, func, stratum, -, -, rfl, hfate⟩ := judge_reached (entry_eq_some.mp h)
  exact (fateOf_kept hfate.symm).2.1

end

end CSecureBuild.Harness.Builder
