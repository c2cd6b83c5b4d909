import CSecureBuild.Harness.Resume

/-!
The cost cap of `cmd_run` over reruns on one output file whose records are all readable. The loop
compares what is spent with the cap after each record, so within one invocation each request but the
first is issued below it (`loop_below`); `below_iff_mayStart` says what the first ones need.
-/

namespace CSecureBuild.Harness.CostCap

open CSecureBuild.PyLib.Json CSecureBuild.PyLib.Text CSecureBuild.Lib.LineLog
open CSecureBuild.Harness.RunEval CSecureBuild.Harness.Resume

/-! ### Files of readable records -/

/-- An output file of records. -/
def fileOf (rs : List Record) : List Char := Log.linesOf (C := recordCodec) rs

lemma fileOf_append (rs : List Record) (r : Record) :
    fileOf rs ++ recordLine r.members = fileOf (rs ++ [r]) := by
  simp [fileOf, Log.linesOf, recordLine, recordCodec]

lemma splitlines_fileOf (rs : List Record) :
    splitlines (fileOf rs) = rs.map fun r => dumps r.members := by
  induction rs with
  | nil => rfl
  | cons r rs ih =>
    have hline : fileOf (r :: rs) = dumps r.members ++ '\n' :: fileOf rs := by
      simp [fileOf, Log.linesOf, recordCodec]
    have hbreak : ∀ c ∈ dumps r.members, isBreak c = false := recordCodec.enc_line r
    rw [hline, splitlines_line hbreak, ih, List.map_cons]

section

variable {F : Type} [AddZeroClass F] {number : List Char → Option F}

/-- The cost of a record. -/
abbrev recordCost (number : List Char → Option F) (r : Record) : Option F :=
  costOf number (entries r.members)

lemma spentOn_append (spent : F) (lines : List (List Char)) (r : Record) :
    spentOn number spent (lines ++ [dumps r.members]) =
      (spentOn number spent lines).bind fun t => (recordCost number r).map (t + ·) := by
  induction lines generalizing spent with
  | nil =>
    simp only [List.nil_append, spentOn, loads_dumps r.ne_nil, Option.bind_some, recordCost]
    cases costOf number (entries r.members) <;> rfl
  | cons line lines ih =>
    rw [List.cons_append, spentOn, spentOn]
    cases loads line with
    | failed => exact ih spent
    | scalar => rfl
    | object members =>
      simp only
      cases costOf number members with
      | none => rfl
      | some cost => exact ih (spent + cost)

/-- **The total grows by what each record costs.** -/
theorem total_append (rs : List Record) (r : Record) :
    total number (fileOf (rs ++ [r])) =
      (total number (fileOf rs)).bind fun t => (recordCost number r).map (t + ·) := by
  unfold total
  rw [splitlines_fileOf, splitlines_fileOf, List.map_append]
  exact spentOn_append 0 _ r

end

/-! ### One invocation -/

variable {F : Type} [AddZeroClass F] [LinearOrder F] {leak : Item → Option Leak}
  {number : List Char → Option F} {args : Args F} {cap : F}

/-- An output file whose total is below the cap. -/
def Below (number : List Char → Option F) (cap : F) (file : List Char) : Prop :=
  ∃ t, total number file = some t ∧ t < cap

/-- An output file whose total is below the cap, or above it by no more than the last cost that was
added below it. -/
def Within (number : List Char → Option F) (cap : F) (file : List Char) : Prop :=
  ∀ t, total number file = some t → t < cap ∨ ∃ t₀ cost : F, t₀ < cap ∧ t = t₀ + cost ∧
    ∃ line ∈ splitlines file, ∃ members, loads line = .object members ∧
      costOf number members = some cost

lemma within_append {rs : List Record} {r : Record} {t cost : F}
    (ht : total number (fileOf rs) = some t) (hcost : recordCost number r = some cost)
    (h : t < cap ∨ cost = 0) (hw : Within number cap (fileOf rs)) :
    Within number cap (fileOf (rs ++ [r])) := by
  intro t' ht'
  have hsum : t' = t + cost := by
    rw [total_append, ht, Option.bind_some, hcost] at ht'
    exact (Option.some.inj ht').symm
  have hlines : splitlines (fileOf (rs ++ [r])) = splitlines (fileOf rs) ++ [dumps r.members] := by
    simp [splitlines_fileOf]
  rw [hlines, hsum]
  rcases h with h | rfl
  · exact Or.inr ⟨t, cost, h, rfl, dumps r.members, by simp, _, loads_dumps r.ne_nil, hcost⟩
  · rw [add_zero]
    refine (hw t ht).imp id ?_
    rintro ⟨t₀, cost, h₀, heq, line, hline, hrest⟩
    exact ⟨t₀, cost, h₀, heq, line, List.mem_append_left _ hline, hrest⟩

omit [LinearOrder F] in
lemma cost_of_leak {reply : Reply} {item : Item} {error : Leak} {ms : Members}
    (hleak : leak item = some error) (h : triageOne leak args reply item = some ms) :
    costOf number (entries ms) = some 0 := by
  unfold triageOne at h
  rw [hleak] at h
  cases h
  rfl

/-- What the first item needs. -/
def FirstBelow (leak : Item → Option Leak) (cap spent : F) (items : List Item) : Prop :=
  ∀ item, items.head? = some item → leak item = none → spent < cap

/-- **The loop asks below the cap, except for its first item.** -/
theorem loop_below (hcap : args.maxCostUsd = some cap) (replies : ℕ → Reply) (n : ℕ) {spent : F}
    {rs : List Record} (hspent : total number (fileOf rs) = some spent) (items : List Item) :
    (∃ rs', (loop leak number args replies n spent (fileOf rs) items).file = fileOf rs') ∧
    ((∀ file ∈ (loop leak number args replies n spent (fileOf rs) items).requests,
      Below number cap file) ↔ FirstBelow leak cap spent items) ∧
    (FirstBelow leak cap spent items → Within number cap (fileOf rs) →
      Within number cap (loop leak number args replies n spent (fileOf rs) items).file) := by
  induction items generalizing n spent rs with
  | nil =>
    refine ⟨⟨rs, rfl⟩, iff_of_true ?_ ?_, fun _ hw => hw⟩
    · simp [loop]
    · intro item h
      cases h
  | cons item items ih =>
    -- the request itself, if there is one
    have hasked : (∀ file ∈ (if (leak item).isNone then [fileOf rs] else []), Below number cap file) ↔
        FirstBelow leak cap spent (item :: items) := by
      have hbelow : Below number cap (fileOf rs) ↔ spent < cap := by
        unfold Below
        simp [hspent]
      have hfirst : FirstBelow leak cap spent (item :: items) ↔ (leak item = none → spent < cap) := by
        unfold FirstBelow
        simp
      rw [hfirst]
      cases leak item with
      | none => simpa using hbelow
      | some error => simp
    rw [loop]
    simp only
    cases hrec : triageOne leak args (replies n) item with
    | none => exact ⟨⟨rs, rfl⟩, hasked, fun _ hw => hw⟩
    | some ms =>
      obtain ⟨r, rfl, -⟩ := triageOne_record hrec
      simp only
      by_cases hgone : requestFailed r.members = true
      · rw [if_pos hgone]
        exact ⟨⟨rs, rfl⟩, hasked, fun _ hw => hw⟩
      rw [if_neg hgone, fileOf_append]
      cases hcost : costOf number (entries r.members) with
      | none =>
        have hraised : total number (fileOf (rs ++ [r])) = none := by
          rw [total_append, hspent, Option.bind_some, recordCost, hcost]
          rfl
        refine ⟨⟨rs ++ [r], rfl⟩, hasked, fun _ _ t ht => ?_⟩
        rw [hraised] at ht
        cases ht
      | some cost =>
        simp only
        have hnext : total number (fileOf (rs ++ [r])) = some (spent + cost) := by
          rw [total_append, hspent, Option.bind_some, recordCost, hcost]
          rfl
        have hwithin : FirstBelow leak cap spent (item :: items) → Within number cap (fileOf rs) →
            Within number cap (fileOf (rs ++ [r])) := by
          intro hfirst hw
          refine within_append hspent hcost ?_ hw
          cases hleak : leak item with
          | none => exact Or.inl (hfirst item rfl hleak)
          | some error =>
            have hzero : costOf number (entries r.members) = some 0 := cost_of_leak hleak hrec
            rw [hcost] at hzero
            exact Or.inr (Option.some.inj hzero)
        by_cases hreached : capReached args (spent + cost) = true
        · rw [if_pos hreached]
          exact ⟨⟨rs ++ [r], rfl⟩, hasked, hwithin⟩
        rw [if_neg hreached]
        have hlt : spent + cost < cap := by
          unfold capReached at hreached
          rw [hcap] at hreached
          simpa using hreached
        obtain ⟨hfile, hrest, hrestw⟩ := ih (n + 1) hnext
        have hfirst : FirstBelow leak cap (spent + cost) items := fun _ _ _ => hlt
        refine ⟨hfile, ?_, fun hf hw => hrestw hfirst (hwithin hf hw)⟩
        rw [← hasked]
        constructor
        · exact fun h file hmem => h file (List.mem_append_left _ hmem)
        · intro h file hmem
          rcases List.mem_append.mp hmem with hmem | hmem
          · exact h file hmem
          · exact hrest.mpr hfirst file hmem

/-! ### Reruns -/

/-- An invocation of `cmd_run` with a cost cap. -/
structure Capped (cap : F) where
  args : Args F
  capped : args.maxCostUsd = some cap
  items : List Item
  replies : ℕ → Reply

/-- What an invocation comes to. -/
def Capped.outcome (leak : Item → Option Leak) (number : List Char → Option F) (i : Capped cap)
    (file : List Char) : Outcome :=
  cmdRun leak number i.args i.items i.replies file

/-- An invocation asks for nothing, or it finds a total below the cap. -/
def Capped.MayStart (leak : Item → Option Leak) (number : List Char → Option F) (i : Capped cap)
    (file : List Char) : Prop :=
  ∀ done spent, doneIds (splitlines file) = some done → total number file = some spent →
    FirstBelow leak cap spent (todo i.args.source done i.items)

variable (leak number) in
/-- **One invocation**: it asks below the cap exactly if it may start. -/
theorem Capped.below (i : Capped cap) (rs : List Record) :
    (∃ rs', (i.outcome leak number (fileOf rs)).file = fileOf rs') ∧
    ((∀ file ∈ (i.outcome leak number (fileOf rs)).requests, Below number cap file) ↔
      i.MayStart leak number (fileOf rs)) ∧
    (i.MayStart leak number (fileOf rs) → Within number cap (fileOf rs) →
      Within number cap (i.outcome leak number (fileOf rs)).file) := by
  unfold Capped.outcome cmdRun Capped.MayStart
  cases hdone : doneIds (splitlines (fileOf rs)) with
  | none => exact ⟨⟨rs, rfl⟩, by simp, fun _ hw => hw⟩
  | some done =>
    cases hspent : total number (fileOf rs) with
    | none => exact ⟨⟨rs, rfl⟩, by simp, fun _ hw => hw⟩
    | some spent =>
      simpa using loop_below i.capped i.replies 1 hspent (todo i.args.source done i.items)

/-- The output files that invocations find, one after another, and the last one. -/
def files (leak : Item → Option Leak) (number : List Char → Option F) :
    List (Capped cap) → List Char → List (List Char)
  | [], file => [file]
  | i :: rest, file => file :: files leak number rest (i.outcome leak number file).file

/-- What was in the output file at each request of some invocations. -/
def requests (leak : Item → Option Leak) (number : List Char → Option F) :
    List (Capped cap) → List Char → List (List Char)
  | [], _ => []
  | i :: rest, file =>
    let outcome := i.outcome leak number file
    outcome.requests ++ requests leak number rest outcome.file

/-- Each of some invocations may start on the file it finds. -/
def AllMayStart (leak : Item → Option Leak) (number : List Char → Option F) :
    List (Capped cap) → List Char → Prop
  | [], _ => True
  | i :: rest, file =>
    i.MayStart leak number file ∧ AllMayStart leak number rest (i.outcome leak number file).file

/-- **The cap holds over reruns exactly if no invocation starts asking at the cap**; and then the total
never passes it by more than the cost of one request. -/
theorem below_iff_mayStart (leak : Item → Option Leak) (number : List Char → Option F) (cap : F)
    (invocations : List (Capped cap)) (rs : List Record) :
    ((∀ file ∈ requests leak number invocations (fileOf rs), Below number cap file) ↔
      AllMayStart leak number invocations (fileOf rs)) ∧
    (AllMayStart leak number invocations (fileOf rs) → Within number cap (fileOf rs) →
      ∀ file ∈ files leak number invocations (fileOf rs), Within number cap file) := by
  induction invocations generalizing rs with
  | nil => exact ⟨by simp [requests, AllMayStart], fun _ hw => by simpa [files] using hw⟩
  | cons i rest ih =>
    obtain ⟨⟨rs', hfile⟩, hbelow, hwithin⟩ := i.below leak number rs
    have hrest := ih rs'
    rw [← hfile] at hrest
    constructor
    · unfold requests AllMayStart
      rw [← hbelow, ← hrest.1]
      simp only [List.mem_append, or_imp, forall_and]
    · rintro ⟨hi, hall⟩ hw file hmem
      rcases List.mem_cons.mp hmem with rfl | hmem
      · exact hw
      · exact hrest.2 hall (hwithin hi hw) file hmem

/-- Two items, and a backend that asks five dollars for each. -/
def fiveDollars : Capped (5 : ℕ) where
  args := { plainArgs with maxCostUsd := some 5 }
  capped := rfl
  items := [plainItem, secondItem]
  replies _ := .claude plainLatency
    (.reported (constant "900") (constant "40") (constant "5") (constant "\"end_turn\"") none) none

/-- The one amount that comes up. -/
def five (text : List Char) : Option ℕ := if text = ['5'] then some 5 else none

/-- **A rerun at the cap asks once more.** -/
theorem rerun_asks_at_cap :
    ∃ file ∈ requests (fun _ => none) five [fiveDollars, fiveDollars] (fileOf []),
      total five file = some 5 ∧ ¬ Below five 5 file := by
  refine ⟨(fiveDollars.outcome (fun _ => none) five []).file, ?_, by decide +kernel, ?_⟩
  · decide +kernel
  · rintro ⟨t, ht, hlt⟩
    have : total five (fiveDollars.outcome (fun _ => none) five []).file = some 5 := by decide +kernel
    rw [this] at ht
    cases ht
    exact absurd hlt (lt_irrefl 5)

end CSecureBuild.Harness.CostCap
