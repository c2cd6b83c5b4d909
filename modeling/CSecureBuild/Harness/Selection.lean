import CSecureBuild.Harness.Select

/-!
`select` looks at the slots of the items only: it commutes with any change of the items that keeps their
slots (`select_map`). So two pools with the same slots give selections with the same keys, whatever else
the items are and in whatever order they come (`select_same_keys`).
-/

namespace CSecureBuild.Harness.Selection

open CSecureBuild.PyLib.Containers CSecureBuild.Harness.Select

section

variable {ι κ : Type} {slot : ι → Slot} {slot' : κ → Slot} {f : ι → κ}

/-! ### Groups -/

/-- The groups of changed items. -/
def mapGroups (f : ι → κ) (groups : Groups ι) : Groups κ := groups.map fun byRule => byRule.map (List.map f)

lemma group_mapGroups (groups : Groups ι) (cwe rule : List Char) :
    group (mapGroups f groups) cwe rule = (group groups cwe rule).map f := by
  unfold group mapGroups
  rw [Dict.get_map]
  cases groups.get cwe with
  | none => rfl
  | some byRule =>
    simp only [Option.map_some, Option.bind_some, Dict.get_map]
    cases byRule.get rule <;> rfl

lemma rulesOf_mapGroups (groups : Groups ι) (cwe : List Char) :
    rulesOf (mapGroups f groups) cwe = rulesOf groups cwe := by
  unfold rulesOf mapGroups
  rw [Dict.get_map, Option.map_map]
  simp only [Function.comp_def, Dict.keys_map]

lemma change_mapGroups {g : List ι → List ι} {g' : List κ → List κ}
    (h : ∀ items, (g items).map f = g' (items.map f)) (groups : Groups ι) (cwe rule : List Char) :
    change (mapGroups f groups) cwe rule g' = mapGroups f (change groups cwe rule g) := by
  unfold change mapGroups
  refine (Dict.map_alter _ (fun byRule => ?_) groups cwe Dict.empty).symm
  exact Dict.map_alter _ h byRule rule []

lemma grouped_map (h : ∀ it, slot' (f it) = slot it) (pool : List ι) :
    grouped slot' (pool.map f) = mapGroups f (grouped slot pool) := by
  have hfold : ∀ (items : List ι) (groups : Groups ι),
      (items.map f).foldl (fun groups it => change groups (slot' it).cwe (slot' it).ruleId (· ++ [it]))
          (mapGroups f groups) =
        mapGroups f (items.foldl (fun groups it =>
          change groups (slot it).cwe (slot it).ruleId (· ++ [it])) groups) := by
    intro items
    induction items with
    | nil => exact fun _ => rfl
    | cons it items ih =>
      intro groups
      have happend : change (mapGroups f groups) (slot it).cwe (slot it).ruleId (· ++ [f it]) =
          mapGroups f (change groups (slot it).cwe (slot it).ruleId (· ++ [it])) :=
        change_mapGroups (fun items => by simp) groups _ _
      rw [List.map_cons, List.foldl_cons, List.foldl_cons, h, happend, ih]
  unfold grouped
  have hsort := List.map_mergeSort (r := fun a b => decide ((slot a).key ≤ (slot b).key))
    (s := fun a b => decide ((slot' a).key ≤ (slot' b).key)) (f := f) (l := pool)
    fun a _ b _ => by rw [h, h]
  rw [← hsort]
  exact hfold _ Dict.empty

lemma shuffled_map (rng : Shuffle) (groups : Groups ι) :
    shuffled rng (mapGroups f groups) = mapGroups f (shuffled rng groups) := by
  unfold shuffled mapGroups
  rw [Dict.visit_map]
  intro past byRule
  exact Dict.visit_map _ (fun past items => shuffle_map rng f past items) past byRule

/-! ### The loop -/

/-- The state with changed items. -/
def mapState (f : ι → κ) (s : State ι) : State κ where
  groups := mapGroups f s.groups
  perRule := s.perRule
  perFamily := s.perFamily
  turn := s.turn
  picked := s.picked.map f

lemma nonempty_mapGroups (groups : Groups ι) (cwe : List Char) (rules : List (List Char)) :
    nonempty (mapGroups f groups) cwe rules = nonempty groups cwe rules := by
  unfold nonempty
  simp only [group_mapGroups, List.isEmpty_map]

lemma pop_mapState (s : State ι) (cwe rule : List Char) :
    (mapState f s).pop cwe rule = mapState f (s.pop cwe rule) := by
  have hchange : change (mapGroups f s.groups) cwe rule List.dropLast =
      mapGroups f (change s.groups cwe rule List.dropLast) :=
    change_mapGroups (fun items => List.map_dropLast) s.groups cwe rule
  unfold State.pop mapState
  rw [hchange]

lemma pick_mapState (h : ∀ it, slot' (f it) = slot it) (s : State ι) (rule : List Char) (it : ι) :
    (mapState f s).pick slot' rule (f it) = mapState f (s.pick slot rule it) := by
  unfold State.pick mapState
  rw [h, List.map_append]
  rfl

lemma last_mapState (s : State ι) (cwe : List Char) (rules : List (List Char)) (hne : rules ≠ []) :
    (group (mapState f s).groups cwe (nextRule (mapState f s) cwe rules hne)).getLast? =
      (group s.groups cwe (nextRule s cwe rules hne)).getLast?.map f := by
  have hgroup : group (mapState f s).groups cwe (nextRule (mapState f s) cwe rules hne) =
      (group s.groups cwe (nextRule s cwe rules hne)).map f :=
    group_mapGroups s.groups cwe _
  rw [hgroup, List.getLast?_map]

lemma pickFrom_map (h : ∀ it, slot' (f it) = slot it) (cwe : List Char) (rules : List (List Char))
    (s : State ι) : pickFrom slot' cwe rules (mapState f s) =
      (pickFrom slot cwe rules s).map fun p => (mapState f p.1, p.2) := by
  induction rules, s using pickFrom.induct slot cwe with
  | case1 s =>
    rw [pickFrom_nil, pickFrom_nil]
    rfl
  | case2 rules s hne hlast =>
    rw [pickFrom_empty slot hne hlast, pickFrom_empty slot' hne (by rw [last_mapState, hlast]; rfl)]
    rfl
  | case3 rules s hne it hlast s₁ hfam =>
    have hfull : s.perFamily (slot it).family < MAX_PER_FAMILY := hfam
    have hlast' := (last_mapState (f := f) s cwe rules hne).trans (congrArg (Option.map f) hlast)
    have hfull' : (mapState f s).perFamily (slot' (f it)).family < MAX_PER_FAMILY := by
      rw [h]
      exact hfull
    rw [pickFrom_last slot hne hlast, pickFrom_last slot' hne hlast', if_pos hfull, if_pos hfull',
      pop_mapState, pick_mapState h]
    rfl
  | case4 rules s hne it hlast s₁ hfam ih =>
    have hfull : ¬ s.perFamily (slot it).family < MAX_PER_FAMILY := hfam
    have hlast' := (last_mapState (f := f) s cwe rules hne).trans (congrArg (Option.map f) hlast)
    have hfull' : ¬ (mapState f s).perFamily (slot' (f it)).family < MAX_PER_FAMILY := by
      rw [h]
      exact hfull
    rw [pickFrom_last slot hne hlast, pickFrom_last slot' hne hlast', if_neg hfull, if_neg hfull',
      pop_mapState]
    have hrules : nonempty (mapState f (s.pop cwe (nextRule s cwe rules hne))).groups cwe rules =
        nonempty (s.pop cwe (nextRule s cwe rules hne)).groups cwe rules :=
      nonempty_mapGroups _ cwe rules
    show pickFrom slot' cwe (nonempty (mapState f (s.pop cwe (nextRule s cwe rules hne))).groups cwe
      rules) _ = _
    rw [hrules]
    exact ih

lemma turnOf_map (h : ∀ it, slot' (f it) = slot it) (cap quota : ℕ) (s : State ι) (progress : Bool)
    (cwe : List Char) : turnOf slot' cap quota (mapState f s, progress) cwe =
      (turnOf slot cap quota (s, progress) cwe).map fun p => (mapState f p.1, p.2) := by
  have hlength : (mapState f s).picked.length = s.picked.length := List.length_map f
  have hrules : nonempty (mapState f s).groups cwe (rulesOf (mapState f s).groups cwe) =
      nonempty s.groups cwe (rulesOf s.groups cwe) := by
    have hsame : rulesOf (mapState f s).groups cwe = rulesOf s.groups cwe := rulesOf_mapGroups s.groups cwe
    rw [hsame]
    exact nonempty_mapGroups s.groups cwe _
  unfold turnOf
  simp only [hlength, hrules]
  split_ifs
  · rfl
  · have hpick := pickFrom_map h cwe ((nonempty s.groups cwe (rulesOf s.groups cwe)).filter
      fun rule => s.perRule rule < cap) s
    have hcap : (mapState f s).perRule = s.perRule := rfl
    rw [hcap, hpick, Option.map_map, Option.map_map]
    rfl

lemma round_map (h : ∀ it, slot' (f it) = slot it) (cap quota : ℕ) (s : State ι) :
    round slot' cap quota (mapState f s) =
      (round slot cap quota s).map fun p => (mapState f p.1, p.2) := by
  have hfold : ∀ (cwes : List (List Char)) (s : State ι) (progress : Bool),
      cwes.foldlM (turnOf slot' cap quota) (mapState f s, progress) =
        (cwes.foldlM (turnOf slot cap quota) (s, progress)).map fun p => (mapState f p.1, p.2) := by
    intro cwes
    induction cwes with
    | nil => exact fun _ _ => rfl
    | cons cwe cwes ih =>
      intro s progress
      rw [List.foldlM_cons, List.foldlM_cons, turnOf_map h]
      cases turnOf slot cap quota (s, progress) cwe with
      | none => rfl
      | some p => exact ih p.1 p.2
  have hkeys : (mapState f s).groups.keys = s.groups.keys := Dict.keys_map _ s.groups
  unfold Select.round
  rw [hkeys]
  exact hfold _ s false

lemma rounds_of_none {cap quota : ℕ} {s : State ι} (h : s.picked.length < quota)
    (hround : Select.round slot cap quota s = none) : rounds slot cap quota s = none := by
  rw [rounds, if_pos h]
  split
  · rfl
  · next hsome => cases hround.symm.trans hsome
  · next hsome => cases hround.symm.trans hsome

lemma rounds_of_full {cap quota : ℕ} {s : State ι} (h : ¬ s.picked.length < quota) :
    rounds slot cap quota s = some s.picked := by
  rw [rounds, if_neg h]

lemma rounds_map (h : ∀ it, slot' (f it) = slot it) (cap quota : ℕ) (s : State ι) :
    rounds slot' cap quota (mapState f s) = (rounds slot cap quota s).map (List.map f) := by
  have hlength : ∀ s : State ι, (mapState f s).picked.length = s.picked.length :=
    fun s => List.length_map f
  induction s using rounds.induct slot cap quota with
  | case1 s hlt hround =>
    rw [rounds_of_none hlt hround, rounds_of_none (by rwa [hlength]) (by rw [round_map h, hround]; rfl)]
    rfl
  | case2 s hlt s' hround ih =>
    have hround' : Select.round slot' cap quota (mapState f s) = some (mapState f s', true) := by
      rw [round_map h, hround]
      rfl
    rw [rounds_of_round slot hlt hround, rounds_of_round slot' (by rwa [hlength]) hround']
    exact ih
  | case3 s hlt s' hround =>
    have hround' : Select.round slot' cap quota (mapState f s) = some (mapState f s', false) := by
      rw [round_map h, hround]
      rfl
    rw [rounds_of_round slot hlt hround, rounds_of_round slot' (by rwa [hlength]) hround']
    rfl
  | case4 s hlt =>
    rw [rounds_of_full hlt, rounds_of_full (by rwa [hlength])]
    rfl

/-- **`select` commutes with a change of the items that keeps their slots.** -/
theorem select_map (h : ∀ it, slot' (f it) = slot it) (rng : Shuffle) (share : ℕ → ℕ) (pool : List ι)
    (quota : ℕ) :
    select slot' rng share (pool.map f) quota =
      (select slot rng share pool quota).map (List.map f) := by
  unfold select
  rw [grouped_map h, shuffled_map, ← rounds_map h]
  rfl

/-- The order by keys. -/
def byKey (a b : Slot) : Bool := decide (a.key ≤ b.key)

lemma sorted_byKey (slots : List Slot) : (slots.mergeSort byKey).Pairwise fun a b => byKey a b = true := by
  refine List.pairwise_mergeSort (fun a b c hab hbc => ?_) (fun a b => ?_) slots
  · simp only [byKey, decide_eq_true_eq] at hab hbc ⊢
    exact hab.trans hbc
  · simp only [byKey, Bool.or_eq_true, decide_eq_true_eq]
    exact le_total a.key b.key

/-- Slots with distinct keys have one order. -/
lemma mergeSort_byKey {slots slots' : List Slot} (h : slots.Perm slots')
    (hkeys : (slots.map Slot.key).Nodup) : slots.mergeSort byKey = slots'.mergeSort byKey := by
  have hperm : (slots.mergeSort byKey).Perm (slots'.mergeSort byKey) :=
    (List.mergeSort_perm slots byKey).trans (h.trans (List.mergeSort_perm slots' byKey).symm)
  refine hperm.eq_of_pairwise (fun a b ha hb hab hba => ?_) (sorted_byKey slots) (sorted_byKey slots')
  have hsame : a.key = b.key := by
    simp only [byKey, decide_eq_true_eq] at hab hba
    exact le_antisymm hab hba
  have ha' : a ∈ slots := List.mem_mergeSort.mp ha
  have hb' : b ∈ slots := h.mem_iff.mpr (List.mem_mergeSort.mp hb)
  exact List.inj_on_of_nodup_map hkeys ha' hb' hsame

/-- **Pools with the same slots** give selections with the same slots. -/
theorem select_same_slots (rng : Shuffle) (share : ℕ → ℕ) {pool : List ι} {pool' : List κ} (quota : ℕ)
    (hsame : (pool.map slot).Perm (pool'.map slot')) (hkeys : ((pool.map slot).map Slot.key).Nodup) :
    (select slot rng share pool quota).map (List.map slot) =
      (select slot' rng share pool' quota).map (List.map slot') := by
  have hgrouped : grouped id (pool.map slot) = grouped id (pool'.map slot') := by
    have hsorted := mergeSort_byKey hsame hkeys
    unfold byKey at hsorted
    unfold grouped
    simp only [id_eq]
    rw [hsorted]
  have hslots : select id rng share (pool.map slot) quota =
      (select slot rng share pool quota).map (List.map slot) :=
    select_map (fun _ => rfl) rng share pool quota
  have hslots' : select id rng share (pool'.map slot') quota =
      (select slot' rng share pool' quota).map (List.map slot') :=
    select_map (fun _ => rfl) rng share pool' quota
  rw [← hslots, ← hslots']
  unfold select
  rw [hgrouped]

end

end CSecureBuild.Harness.Selection
