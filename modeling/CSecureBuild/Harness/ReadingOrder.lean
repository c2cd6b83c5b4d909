import CSecureBuild.Harness.Builder
import CSecureBuild.Harness.Selection

/-!
Whether the items of `cmd_items` depend on the order of the findings in a report. Of the findings with one
key the first that gets as far counts, also if it is dropped then for its message, so what could come first
must all go the same way (`order_free_iff`).
-/

namespace CSecureBuild.Harness.ReadingOrder

open CSecureBuild.PyLib.Text CSecureBuild.PyLib.Containers CSecureBuild.Lib.FirstCome
open CSecureBuild.Harness.Scrub CSecureBuild.Harness.Items CSecureBuild.Harness.Select
open CSecureBuild.Harness.Builder CSecureBuild.Harness.Selection

/-! ### Pools with the same keys -/

/-- A pool has an item with a key. -/
def Holds (pools : Pools) (part : Split) (stratum : Stratum) (key : List Char) : Prop :=
  ∃ item ∈ pools part stratum, item.key = key

/-- The same keys in the same pools. -/
def SamePools : Option Pools → Option Pools → Prop :=
  Option.Rel fun pools pools' => ∀ part stratum key, Holds pools part stratum key ↔
    Holds pools' part stratum key

/-- The pool an item goes to. -/
def place : Fate → Option (Split × Stratum)
  | .kept split item => some (split, item.stratum)
  | _ => none

section

variable {u : Unicode} {work : Work} {rng : List Char → ℕ → Fin SYLLABLES.length} {tries : ℕ}
  {reports reports' : List (List Finding)}

/-- **A pool has a key** if what comes first for it goes there. -/
lemma holds_iff {part : Split} {stratum : Stratum} {key : List Char} :
    Holds (keptPools u work rng tries reports) part stratum key ↔
      (first (entry u work rng tries) reports key).bind place = some (part, stratum) := by
  unfold Holds
  simp only [mem_keptPools, itemFor_eq_some, Option.bind_eq_some_iff]
  constructor
  · rintro ⟨item, ⟨key', _, hfirst, rfl, rfl⟩, rfl⟩
    obtain ⟨f, -, hf⟩ := mem_of_first hfirst
    rw [← key_of_entry hf] at hfirst
    exact ⟨_, hfirst, rfl⟩
  · rintro ⟨fate, hfirst, hplace⟩
    cases fate with
    | kept split item =>
      cases hplace
      obtain ⟨f, -, hf⟩ := mem_of_first hfirst
      exact ⟨item, ⟨key, _, hfirst, rfl, rfl⟩, key_of_entry hf⟩
    | _ => cases hplace

lemma raisesAt_iff (h : Reordered reports reports') :
    RaisesAt u work rng tries reports.flatten ↔ RaisesAt u work rng tries reports'.flatten := by
  have hmem : ∀ f, f ∈ reports.flatten ↔ f ∈ reports'.flatten := by
    induction h with
    | nil => exact fun _ => Iff.rfl
    | cons hreport _ ih =>
      intro f
      rw [List.flatten_cons, List.flatten_cons, List.mem_append, List.mem_append, hreport.mem_iff, ih]
  unfold RaisesAt
  simp only [hmem]

/-- **The pools are the same** if the program raises anyway, or what comes first goes to the same pools. -/
lemma samePools_iff (h : Reordered reports reports') :
    SamePools (poolsOf u work rng tries reports) (poolsOf u work rng tries reports') ↔
      RaisesAt u work rng tries reports.flatten ∨
        SameOutcome (entry u work rng tries) Fate.isFailure place reports reports' := by
  by_cases hraises : RaisesAt u work rng tries reports.flatten
  · rw [poolsOf_fail (Or.inl hraises), poolsOf_fail (Or.inl ((raisesAt_iff h).mp hraises))]
    exact iff_of_true .none (Or.inl hraises)
  have hraises' := (raisesAt_iff h).not.mp hraises
  rw [or_iff_right hraises]
  by_cases hfails : Fails (entry u work rng tries) Fate.isFailure reports <;>
    by_cases hfails' : Fails (entry u work rng tries) Fate.isFailure reports'
  · rw [poolsOf_fail (Or.inr hfails), poolsOf_fail (Or.inr hfails')]
    exact iff_of_true .none ⟨iff_of_true hfails hfails', fun h => absurd hfails h⟩
  · rw [poolsOf_fail (Or.inr hfails), poolsOf_keep hraises' hfails']
    exact iff_of_false (fun h => by cases h) fun h => hfails' (h.fails.mp hfails)
  · rw [poolsOf_keep hraises hfails, poolsOf_fail (Or.inr hfails')]
    exact iff_of_false (fun h => by cases h) fun h => hfails (h.fails.mpr hfails')
  · rw [poolsOf_keep hraises hfails, poolsOf_keep hraises' hfails']
    constructor
    · intro h
      cases h with | some hsame
      refine ⟨iff_of_false hfails hfails', fun _ key => Option.ext fun p => ?_⟩
      obtain ⟨part, stratum⟩ := p
      rw [← holds_iff, ← holds_iff]
      exact hsame part stratum key
    · intro hsame
      refine .some fun part stratum key => ?_
      rw [holds_iff, holds_iff, hsame.looks hfails key]

variable (u work rng tries reports) in
/-- The program fails in every order, or all findings with a key that could come first go the same way. -/
def Steady : Prop :=
  RaisesAt u work rng tries reports.flatten ∨
    Doomed (entry u work rng tries) Fate.isFailure reports ∨
    Settled (entry u work rng tries) Fate.isFailure place reports

/-- **The pools do not depend on the order** exactly if the reports are steady. -/
theorem pools_iff : (∀ reports', Reordered reports reports' →
      SamePools (poolsOf u work rng tries reports) (poolsOf u work rng tries reports')) ↔
    Steady u work rng tries reports := by
  unfold Steady
  rw [← sameOutcome_iff]
  constructor
  · intro h
    refine or_iff_not_imp_left.mpr fun hraises reports' hsame => ?_
    exact ((samePools_iff hsame).mp (h reports' hsame)).resolve_left hraises
  · exact fun h reports' hsame => (samePools_iff hsame).mpr (h.imp_right fun h => h reports' hsame)

/-! ### The selection -/

/-- The pool an item goes to, and what `select` reads of it. -/
def slotPlace : Fate → Option (Split × Stratum × Slot)
  | .kept split item => some (split, item.stratum, item.slot)
  | _ => none

variable (u work rng tries reports) in
/-- Of the findings with a key that could come first those that are kept have one slot: they are in one
directory, and of one rule. -/
def OneSlot : Prop := ∀ key part item part' item',
  Fate.kept part item ∈ rivals (entry u work rng tries) key reports →
    Fate.kept part' item' ∈ rivals (entry u work rng tries) key reports → item.slot = item'.slot

lemma settled_slots (h : Settled (entry u work rng tries) Fate.isFailure place reports)
    (hslot : OneSlot u work rng tries reports) :
    Settled (entry u work rng tries) Fate.isFailure slotPlace reports := by
  intro key a ha b hb
  obtain ⟨hfails, hplace⟩ := h key a ha b hb
  refine ⟨hfails, fun hspared => ?_⟩
  have hplace := hplace hspared
  cases a <;> cases b <;> simp only [place, slotPlace, Option.some.injEq, Prod.mk.injEq, reduceCtorEq]
    at hplace ⊢
  exact ⟨hplace.1, hplace.2, hslot key _ _ _ _ ha hb⟩

lemma mem_slots {part : Split} {stratum : Stratum} {slot : Slot} :
    slot ∈ (keptPools u work rng tries reports part stratum).map Item.slot ↔
      ∃ key, (first (entry u work rng tries) reports key).bind slotPlace = some (part, stratum, slot) := by
  simp only [List.mem_map, mem_keptPools, itemFor_eq_some, Option.bind_eq_some_iff]
  constructor
  · rintro ⟨item, ⟨key, _, hfirst, rfl, rfl⟩, rfl⟩
    exact ⟨key, _, hfirst, rfl⟩
  · rintro ⟨key, fate, hfirst, hplace⟩
    cases fate with
    | kept split item =>
      cases hplace
      exact ⟨item, ⟨key, _, hfirst, rfl, rfl⟩, rfl⟩
    | _ => cases hplace

variable (u work rng tries reports) in
/-- **A pool has a key once.** -/
lemma nodup_keys (part : Split) (stratum : Stratum) :
    (((keptPools u work rng tries reports part stratum).map Item.slot).map Slot.key).Nodup := by
  rw [List.map_map]
  have hsub : ∀ es : List (List Char × Fate), (∀ e ∈ es, ∃ f, entry u work rng tries f = some e) →
      ((es.filterMap fun e => e.2.itemFor part stratum).map Item.key).Sublist (es.map Prod.fst) := by
    intro es
    induction es with
    | nil => exact fun _ => .slnil
    | cons e es ih =>
      intro h
      have hrest := ih fun e' he' => h e' (List.mem_cons_of_mem e he')
      rw [List.filterMap_cons, List.map_cons]
      cases hitem : e.2.itemFor part stratum with
      | none => exact hrest.cons _
      | some item =>
        obtain ⟨hkept, -⟩ := itemFor_eq_some.mp hitem
        obtain ⟨f, hf⟩ := h e List.mem_cons_self
        have hkey : item.key = e.1 := key_of_entry (hf.trans (congrArg some (Prod.ext rfl hkept)))
        rw [List.map_cons, hkey]
        exact hrest.cons_cons _
  refine (nodup_firsts [] _).sublist (hsub _ fun e he => ?_)
  obtain ⟨f, -, hf⟩ := mem_of_first (mem_firsts_entries.mp he)
  exact ⟨f, hf⟩

lemma slots_perm (hsame : SameOutcome (entry u work rng tries) Fate.isFailure slotPlace reports reports')
    (hfails : ¬ Fails (entry u work rng tries) Fate.isFailure reports) (part : Split)
    (stratum : Stratum) : ((keptPools u work rng tries reports part stratum).map Item.slot).Perm
      ((keptPools u work rng tries reports' part stratum).map Item.slot) := by
  have hnodup : ∀ reports : List (List Finding),
      ((keptPools u work rng tries reports part stratum).map Item.slot).Nodup :=
    fun reports => (nodup_keys u work rng tries reports part stratum).of_map _
  rw [List.perm_ext_iff_of_nodup (hnodup reports) (hnodup reports')]
  intro slot
  rw [mem_slots, mem_slots]
  simp only [hsame.looks hfails]

/-- What is put together of some selections, as far as slots go. -/
lemma mapM_slots {quotas : List (Stratum × ℕ)} {pick pick' : Stratum × ℕ → Option (List Item)}
    (h : ∀ q ∈ quotas, (pick q).map (List.map Item.slot) = (pick' q).map (List.map Item.slot)) :
    ((quotas.mapM pick).map List.flatten).map (List.map Item.slot) =
      ((quotas.mapM pick').map List.flatten).map (List.map Item.slot) := by
  induction quotas with
  | nil => rfl
  | cons q quotas ih =>
    have hq := h q List.mem_cons_self
    have hrest := ih fun r hr => h r (List.mem_cons_of_mem q hr)
    rw [List.mapM_cons, List.mapM_cons]
    cases hpick : pick q with
    | none =>
      rw [hpick, Option.map_none, eq_comm, Option.map_eq_none_iff] at hq
      rw [hq]
      rfl
    | some items =>
      rw [hpick, Option.map_some, eq_comm, Option.map_eq_some_iff] at hq
      obtain ⟨items', hpick', hslots⟩ := hq
      rw [hpick']
      cases hmore : quotas.mapM pick <;> cases hmore' : quotas.mapM pick' <;>
        rw [hmore, hmore'] at hrest <;> simp_all

variable (u work rng tries) in
/-- The keys of the items for `test.jsonl`. -/
def testKeys (seeded : Shuffle) (share : ℕ → ℕ) (reports : List (List Finding)) :
    Option (List (List Char)) :=
  (cmdItems u work rng tries seeded share reports).map fun out => out.1.map Item.key

lemma testKeys_eq (seeded : Shuffle) (share : ℕ → ℕ) (reports : List (List Finding)) :
    testKeys u work rng tries seeded share reports = (poolsOf u work rng tries reports).bind
      fun pools => ((testItems seeded share pools).map (List.map Item.slot)).map (List.map Slot.key) := by
  unfold testKeys cmdItems
  cases poolsOf u work rng tries reports with
  | none => rfl
  | some pools =>
    simp only [Option.bind_eq_bind, Option.bind_some, Option.map_map]
    cases testItems seeded share pools with
    | none => rfl
    | some test => simp [Function.comp_def, Item.slot]

/-- **The selection does not depend on the order** where the pools do not, and the findings with a key that
could come first have one slot. -/
theorem testKeys_reordered (seeded : Shuffle) (share : ℕ → ℕ)
    (h : Steady u work rng tries reports) (hslot : OneSlot u work rng tries reports)
    (hsame : Reordered reports reports') :
    testKeys u work rng tries seeded share reports = testKeys u work rng tries seeded share reports' := by
  rw [testKeys_eq, testKeys_eq]
  by_cases hraises : RaisesAt u work rng tries reports.flatten
  · rw [poolsOf_fail (Or.inl hraises), poolsOf_fail (Or.inl ((raisesAt_iff hsame).mp hraises))]
  have houtcome : SameOutcome (entry u work rng tries) Fate.isFailure slotPlace reports reports' :=
    sameOutcome_iff.mpr ((h.resolve_left hraises).imp_right fun h => settled_slots h hslot) reports' hsame
  by_cases hfails : Fails (entry u work rng tries) Fate.isFailure reports
  · rw [poolsOf_fail (Or.inr hfails), poolsOf_fail (Or.inr (houtcome.fails.mp hfails))]
  rw [poolsOf_keep hraises hfails, poolsOf_keep ((raisesAt_iff hsame).not.mp hraises)
    (houtcome.fails.not.mp hfails), Option.bind_some, Option.bind_some]
  congr 1
  refine mapM_slots fun q _ => ?_
  exact select_same_slots seeded share q.2 (slots_perm houtcome hfails .test q.1)
    (nodup_keys u work rng tries reports .test q.1)

/-- **The items do not depend on the order of the findings** exactly if the reports are steady: the pools have
the same keys then, and so has `test.jsonl` if the findings that could come first have one slot. -/
theorem order_free_iff (u : Unicode) (work : Work) (rng : List Char → ℕ → Fin SYLLABLES.length)
    (tries : ℕ) (seeded : Shuffle) (share : ℕ → ℕ) (reports : List (List Finding)) :
    ((∀ reports', Reordered reports reports' →
        SamePools (poolsOf u work rng tries reports) (poolsOf u work rng tries reports')) ↔
      Steady u work rng tries reports) ∧
    (Steady u work rng tries reports → OneSlot u work rng tries reports →
      ∀ reports', Reordered reports reports' →
        testKeys u work rng tries seeded share reports =
          testKeys u work rng tries seeded share reports') :=
  ⟨pools_iff, fun h hslot _ hsame => testKeys_reordered seeded share h hslot hsame⟩

end

/-! ### A message with a label word -/

/-- The file of the example, with a flaw in its fourth line. -/
def flawed : SourceFile where
  name := "t_01.c".toList
  dir := "121".toList
  relative := some "juliet/121/t_01.c".toList
  text := "void bad()\n\x7b\n/* FLAW: x */\nf(a);\n\x7d\n".toList

/-- A work directory with one file. -/
def oneFile : Work where
  file uri := if uri = "juliet/121/t_01.c".toList then some flawed else none
  split _ := some .test

/-- A finding in the fourth line, with a message. -/
def flagged (message : List Char) : Finding where
  tool := "flawfinder".toList
  ruleId := "r".toList
  ruleCwes := ["121".toList]
  message
  uri := "juliet/121/t_01.c".toList
  startLine := 4
  endLine := 4

/-- The syllables one after another. -/
def inTurn (_ : List Char) (n : ℕ) : Fin SYLLABLES.length := ⟨n % SYLLABLES.length, Nat.mod_lt _ (by decide)⟩

/-- **The order counts**: of two findings with one key the first one was read, and dropped for its message. -/
theorem order_counts : ¬ ∀ reports', Reordered [[flagged "plain".toList, flagged "good".toList]] reports' →
    SamePools (poolsOf ascii oneFile inTurn 5 [[flagged "plain".toList, flagged "good".toList]])
      (poolsOf ascii oneFile inTurn 5 reports') := by
  intro h
  have hswap := h [[flagged "good".toList, flagged "plain".toList]]
    (.cons (List.Perm.swap _ _ _) .nil)
  have hfull : (poolsOf ascii oneFile inTurn 5 [[flagged "plain".toList, flagged "good".toList]]).map
      (fun pools => (pools .test .tp).length) = some 1 := by decide +kernel
  have hempty : (poolsOf ascii oneFile inTurn 5 [[flagged "good".toList, flagged "plain".toList]]).map
      (fun pools => (pools .test .tp).length) = some 0 := by decide +kernel
  obtain ⟨full, hpools, hone⟩ := Option.map_eq_some_iff.mp hfull
  obtain ⟨empty, hpools', hnone⟩ := Option.map_eq_some_iff.mp hempty
  rw [hpools, hpools'] at hswap
  cases hswap with
  | some hkeys =>
    obtain ⟨item, hitem⟩ := List.exists_mem_of_length_pos (hone ▸ Nat.one_pos)
    obtain ⟨item', hitem', -⟩ := (hkeys .test .tp item.key).mp ⟨item, hitem, rfl⟩
    rw [List.length_eq_zero_iff.mp hnone] at hitem'
    cases hitem'

end CSecureBuild.Harness.ReadingOrder
