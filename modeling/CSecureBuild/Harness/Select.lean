import CSecureBuild.PyLib.Containers

/-!
`select` of `llm-eval/harness/build_v2.py`: the items of a stratum, in turn over the CWEs and over the
rules of each, within a cap on each rule and on each family.

The generator is what its `shuffle` does to the places of a list (`PyLib/Containers.lean`), and
`int(quota * MAX_RULE_SHARE)`, a product of floats, is what a function `share` gives for the quota.
-/

namespace CSecureBuild.Harness.Select

open CSecureBuild.PyLib.Containers

/-! ### Items -/

/-- What `select` reads of an item. -/
structure Slot where
  key : List Char
  cwe : List Char
  ruleId : List Char
  family : List Char
  deriving DecidableEq

/-- `sorted` -/
def sorted (names : List (List Char)) : List (List Char) := names.mergeSort fun a b => decide (a ≤ b)

section

variable {ι : Type} (slot : ι → Slot)

/-- Items by their CWE, and by their rule. -/
abbrev Groups (ι : Type) := Dict (List Char) (Dict (List Char) (List ι))

/-- `groups[cwe][rule]` -/
def group (groups : Groups ι) (cwe rule : List Char) : List ι :=
  ((groups.get cwe).bind fun byRule => byRule.get rule).getD []

/-- `sorted(groups[cwe])` -/
def rulesOf (groups : Groups ι) (cwe : List Char) : List (List Char) :=
  sorted (((groups.get cwe).map Dict.keys).getD [])

/-- Something done to `groups[cwe][rule]`. -/
def change (groups : Groups ι) (cwe rule : List Char) (f : List ι → List ι) : Groups ι :=
  groups.alter cwe Dict.empty fun byRule => byRule.alter rule [] f

/-- The items by their CWE and rule, in the order of their keys. -/
def grouped (pool : List ι) : Groups ι :=
  (pool.mergeSort fun a b => decide ((slot a).key ≤ (slot b).key)).foldl
    (fun groups it => change groups (slot it).cwe (slot it).ruleId (· ++ [it])) Dict.empty

/-- Each group is shuffled. -/
def shuffled (rng : Shuffle) (groups : Groups ι) : Groups ι :=
  (groups.visit (fun past byRule => byRule.visit (shuffle rng) past) []).2

/-! ### The loop -/

/-- `MAX_PER_FAMILY` -/
def MAX_PER_FAMILY : ℕ := 2

/-- What the loop changes. -/
structure State (ι : Type) where
  groups : Groups ι
  perRule : List Char → ℕ
  perFamily : List Char → ℕ
  turn : List Char → ℕ
  picked : List ι

/-- `counter[k] += 1` -/
def count (counter : List Char → ℕ) (k : List Char) : List Char → ℕ :=
  Function.update counter k (counter k + 1)

/-- The rules that have items left. -/
def nonempty (groups : Groups ι) (cwe : List Char) (rules : List (List Char)) : List (List Char) :=
  rules.filter fun rule => !(group groups cwe rule).isEmpty

/-- How many items the rules have left. -/
def left (groups : Groups ι) (cwe : List Char) (rules : List (List Char)) : ℕ :=
  (rules.map fun rule => (group groups cwe rule).length).sum

/-- The rule whose turn it is. -/
def nextRule (s : State ι) (cwe : List Char) (rules : List (List Char)) (h : rules ≠ []) : List Char :=
  rules.get ⟨s.turn cwe % rules.length, Nat.mod_lt _ (List.length_pos_iff.mpr h)⟩

/-- An item is taken from a rule's group, which is the next turn. -/
def State.pop (s : State ι) (cwe rule : List Char) : State ι :=
  { s with turn := count s.turn cwe, groups := change s.groups cwe rule List.dropLast }

/-- An item is picked. -/
def State.pick (s : State ι) (rule : List Char) (it : ι) : State ι :=
  { s with
    picked := s.picked ++ [it]
    perRule := count s.perRule rule
    perFamily := count s.perFamily (slot it).family }

@[simp] lemma group_empty (cwe rule : List Char) : group (Dict.empty : Groups ι) cwe rule = [] := rfl

lemma group_change (groups : Groups ι) (cwe rule : List Char) (f : List ι → List ι)
    (c r : List Char) :
    group (change groups cwe rule f) c r =
      if c = cwe ∧ r = rule then f (group groups cwe rule) else group groups c r := by
  unfold group change
  rw [Dict.get_alter]
  by_cases hc : c = cwe
  · simp only [hc, true_and, if_true, Option.bind_some, Dict.get_alter]
    cases groups.get cwe with
    | none => split_ifs <;> rfl
    | some byRule => split_ifs <;> rfl
  · simp [hc]

lemma left_pop_lt {s : State ι} {cwe rule : List Char} {rules : List (List Char)}
    (hrule : rule ∈ rules) (hne : group s.groups cwe rule ≠ []) :
    left (s.pop cwe rule).groups cwe (nonempty (s.pop cwe rule).groups cwe rules) <
      left s.groups cwe rules := by
  have hlen : ∀ r, (group (s.pop cwe rule).groups cwe r).length =
      (group s.groups cwe r).length - if r = rule then 1 else 0 := by
    intro r
    simp only [State.pop, group_change, true_and]
    split_ifs with h
    · rw [List.length_dropLast, h]
    · rfl
  refine lt_of_le_of_lt (List.Sublist.sum_le_sum (List.filter_sublist.map _) fun _ _ => Nat.zero_le _) ?_
  refine List.sum_lt_sum _ _ (fun r _ => by rw [hlen]; exact Nat.sub_le _ _) ⟨rule, hrule, ?_⟩
  have hpos := List.length_pos_iff.mpr hne
  rw [hlen, if_pos rfl]
  omega

/-- The inner loop, over the rules of a CWE: whether an item was picked. `none` is an `IndexError`. -/
def pickFrom (cwe : List Char) (rules : List (List Char)) (s : State ι) : Option (State ι × Bool) :=
  if h : rules = [] then some (s, false)
  else
    match _hlast : (group s.groups cwe (nextRule s cwe rules h)).getLast? with
    | none => none
    | some it =>
      let s' := s.pop cwe (nextRule s cwe rules h)
      if s'.perFamily (slot it).family < MAX_PER_FAMILY then
        some (s'.pick slot (nextRule s cwe rules h) it, true)
      else pickFrom cwe (nonempty s'.groups cwe rules) s'
termination_by left s.groups cwe rules
decreasing_by
  exact left_pop_lt (List.get_mem _ _) (by rintro h0; simp [h0] at _hlast)

lemma pickFrom_nil (cwe : List Char) (s : State ι) : pickFrom slot cwe [] s = some (s, false) := by
  rw [pickFrom, dif_pos rfl]

lemma pickFrom_empty {cwe : List Char} {rules : List (List Char)} {s : State ι} (h : rules ≠ [])
    (hlast : (group s.groups cwe (nextRule s cwe rules h)).getLast? = none) :
    pickFrom slot cwe rules s = none := by
  rw [pickFrom, dif_neg h]
  split
  · rfl
  · next hit => rw [hlast] at hit; cases hit

lemma pickFrom_last {cwe : List Char} {rules : List (List Char)} {s : State ι} (h : rules ≠ []) {it : ι}
    (hlast : (group s.groups cwe (nextRule s cwe rules h)).getLast? = some it) :
    pickFrom slot cwe rules s =
      if s.perFamily (slot it).family < MAX_PER_FAMILY then
        some ((s.pop cwe (nextRule s cwe rules h)).pick slot (nextRule s cwe rules h) it, true)
      else pickFrom slot cwe (nonempty (s.pop cwe (nextRule s cwe rules h)).groups cwe rules)
        (s.pop cwe (nextRule s cwe rules h)) := by
  rw [pickFrom, dif_neg h]
  split
  · next hit => rw [hlast] at hit; cases hit
  · next it' hit =>
    cases hlast.symm.trans hit
    rfl

/-- One CWE of a round. -/
def turnOf (cap quota : ℕ) (st : State ι × Bool) (cwe : List Char) : Option (State ι × Bool) :=
  let (s, progress) := st
  if quota ≤ s.picked.length then some (s, progress)
  else
    let rules := (nonempty s.groups cwe (rulesOf s.groups cwe)).filter fun rule => s.perRule rule < cap
    (pickFrom slot cwe rules s).map fun (s, got) => (s, progress || got)

/-- A round over the CWEs, and whether it picked anything. -/
def round (cap quota : ℕ) (s : State ι) : Option (State ι × Bool) :=
  (sorted s.groups.keys).foldlM (turnOf slot cap quota) (s, false)

lemma length_pickFrom {cwe : List Char} {rules : List (List Char)} {s s' : State ι} {got : Bool}
    (h : pickFrom slot cwe rules s = some (s', got)) :
    s'.picked.length = s.picked.length + got.toNat := by
  induction rules, s using pickFrom.induct slot cwe with
  | case1 s =>
    rw [pickFrom_nil] at h
    cases h
    rfl
  | case2 rules s hne hlast =>
    rw [pickFrom_empty slot hne hlast] at h
    cases h
  | case3 rules s hne it hlast s₁ hfam =>
    rw [pickFrom_last slot hne hlast,
      if_pos (show s.perFamily (slot it).family < MAX_PER_FAMILY from hfam)] at h
    cases h
    simp [State.pick, State.pop]
  | case4 rules s hne it hlast s₁ hfam ih =>
    rw [pickFrom_last slot hne hlast,
      if_neg (show ¬ s.perFamily (slot it).family < MAX_PER_FAMILY from hfam)] at h
    exact ih h

lemma length_turnOf {cap quota : ℕ} {s s' : State ι} {p p' : Bool} {cwe : List Char}
    (h : turnOf slot cap quota (s, p) cwe = some (s', p')) :
    s.picked.length ≤ s'.picked.length ∧ (p' = true → p = true ∨ s.picked.length < s'.picked.length) := by
  simp only [turnOf] at h
  split_ifs at h
  · cases h
    exact ⟨le_rfl, Or.inl⟩
  · obtain ⟨⟨s₁, got⟩, hpick, h⟩ := Option.map_eq_some_iff.mp h
    have hlen := length_pickFrom slot hpick
    cases h
    cases got with
    | false => simp_all
    | true => simp_all

lemma length_round {cap quota : ℕ} {s s' : State ι} (h : round slot cap quota s = some (s', true)) :
    s.picked.length < s'.picked.length := by
  have hfold : ∀ (cwes : List (List Char)) (s : State ι) (p : Bool) (s' : State ι) (p' : Bool),
      cwes.foldlM (turnOf slot cap quota) (s, p) = some (s', p') →
      s.picked.length ≤ s'.picked.length ∧
        (p' = true → p = true ∨ s.picked.length < s'.picked.length) := by
    intro cwes
    induction cwes with
    | nil =>
      intro s p s' p' h
      cases h
      exact ⟨le_rfl, Or.inl⟩
    | cons cwe cwes ih =>
      intro s p s' p' h
      rw [List.foldlM_cons] at h
      obtain ⟨⟨s₁, p₁⟩, hturn, hrest⟩ := Option.bind_eq_some_iff.mp h
      obtain ⟨h₁, h₂⟩ := length_turnOf slot hturn
      obtain ⟨h₃, h₄⟩ := ih s₁ p₁ s' p' hrest
      refine ⟨h₁.trans h₃, fun hp => ?_⟩
      rcases h₄ hp with h₄ | h₄
      · exact (h₂ h₄).imp_right fun h => h.trans_le h₃
      · exact Or.inr (h₁.trans_lt h₄)
  exact ((hfold _ s false s' true h).2 rfl).resolve_left (by decide)

/-- The rounds, until the quota is reached or a round picks nothing. -/
def rounds (cap quota : ℕ) (s : State ι) : Option (List ι) :=
  if s.picked.length < quota then
    match _hround : round slot cap quota s with
    | none => none
    | some (s', true) => rounds cap quota s'
    | some (s', false) => some s'.picked
  else some s.picked
termination_by quota - s.picked.length
decreasing_by
  have := length_round slot _hround
  omega

lemma rounds_of_round {cap quota : ℕ} {s s' : State ι} {p : Bool} (h : s.picked.length < quota)
    (hround : round slot cap quota s = some (s', p)) :
    rounds slot cap quota s = if p then rounds slot cap quota s' else some s'.picked := by
  rw [rounds, if_pos h]
  split
  · next hnone => rw [hround] at hnone; cases hnone
  · next hsome => cases hround.symm.trans hsome; rfl
  · next hsome => cases hround.symm.trans hsome; rfl

/-- `select`: the items that are picked. -/
def select (rng : Shuffle) (share : ℕ → ℕ) (pool : List ι) (quota : ℕ) : Option (List ι) :=
  rounds slot (max 1 (share quota)) quota
    ⟨shuffled rng (grouped slot pool), fun _ => 0, fun _ => 0, fun _ => 0, []⟩

end

/-! ### The invariant -/

section

variable {ι : Type} (slot : ι → Slot)

/-- The items of a rule. -/
def ofRule (picked : List ι) (rule : List Char) : ℕ := picked.countP fun it => (slot it).ruleId = rule

/-- The items of a family. -/
def ofFamily (picked : List ι) (family : List Char) : ℕ :=
  picked.countP fun it => (slot it).family = family

/-- The items of a CWE. -/
def ofCwe (picked : List ι) (cwe : List Char) : ℕ := picked.countP fun it => (slot it).cwe = cwe

/-- An item cannot be added: its rule or its family is full. -/
def Blocked (cap : ℕ) (picked : List ι) (it : ι) : Prop :=
  cap ≤ ofRule slot picked (slot it).ruleId ∨ MAX_PER_FAMILY ≤ ofFamily slot picked (slot it).family

/-- Every item of a CWE is picked or blocked. -/
def Exhausted (cap : ℕ) (pool picked : List ι) (cwe : List Char) : Prop :=
  ∀ it ∈ pool, (slot it).cwe = cwe → it ∈ picked ∨ Blocked slot cap picked it

/-- What the loop keeps: the counters count, the caps hold, and every item of the pool is picked, or
waits in its group, or has a full family. -/
structure Kept (cap : ℕ) (pool : List ι) (s : State ι) : Prop where
  perRule : ∀ rule, s.perRule rule = ofRule slot s.picked rule
  perFamily : ∀ family, s.perFamily family = ofFamily slot s.picked family
  rule_le : ∀ rule, ofRule slot s.picked rule ≤ cap
  family_le : ∀ family, ofFamily slot s.picked family ≤ MAX_PER_FAMILY
  picked_subset : ∀ it ∈ s.picked, it ∈ pool
  picked_nodup : s.picked.Nodup
  waiting : ∀ cwe rule, ∀ it ∈ group s.groups cwe rule,
    it ∈ pool ∧ (slot it).cwe = cwe ∧ (slot it).ruleId = rule
  waiting_nodup : ∀ cwe rule, (group s.groups cwe rule).Nodup
  waiting_fresh : ∀ cwe rule, ∀ it ∈ group s.groups cwe rule, it ∉ s.picked
  covered : ∀ it ∈ pool, it ∈ s.picked ∨ it ∈ group s.groups (slot it).cwe (slot it).ruleId ∨
    MAX_PER_FAMILY ≤ ofFamily slot s.picked (slot it).family

variable {slot} {cap quota : ℕ} {pool picked : List ι} {s s' : State ι} {cwe rule : List Char} {it : ι}

lemma Blocked.append (h : Blocked slot cap picked it) (more : List ι) :
    Blocked slot cap (picked ++ more) it := by
  unfold Blocked ofRule ofFamily at h ⊢
  rw [List.countP_append, List.countP_append]
  exact h.imp (fun h => h.trans (Nat.le_add_right _ _)) fun h => h.trans (Nat.le_add_right _ _)

lemma Exhausted.append (h : Exhausted slot cap pool picked cwe) (more : List ι) :
    Exhausted slot cap pool (picked ++ more) cwe := fun it hit hcwe =>
  (h it hit hcwe).imp (List.mem_append_left more) fun hb => hb.append more

lemma mem_dropLast_or {xs : List ι} (h : xs.getLast? = some it) {x : ι} (hx : x ∈ xs) :
    x ∈ xs.dropLast ∨ x = it := by
  rw [← List.dropLast_append_getLast? it h] at hx
  simpa using hx

lemma notMem_dropLast {xs : List ι} (h : xs.getLast? = some it) (hn : xs.Nodup) : it ∉ xs.dropLast := by
  rw [← List.dropLast_append_getLast? it h] at hn
  exact fun hmem => (List.nodup_append.mp hn).2.2 it hmem it (by simp) rfl

lemma mem_group_pop {c r : List Char} {x : ι} (h : x ∈ group (s.pop cwe rule).groups c r) :
    x ∈ group s.groups c r := by
  simp only [State.pop, group_change] at h
  split_ifs at h with hcr
  · obtain ⟨rfl, rfl⟩ := hcr
    exact List.mem_of_mem_dropLast h
  · exact h

lemma Kept.pop_waiting (h : Kept slot cap pool s) (c r : List Char) :
    ∀ x ∈ group (s.pop cwe rule).groups c r, x ∈ pool ∧ (slot x).cwe = c ∧ (slot x).ruleId = r :=
  fun x hx => h.waiting c r x (mem_group_pop hx)

lemma Kept.pop_nodup (h : Kept slot cap pool s) (c r : List Char) :
    (group (s.pop cwe rule).groups c r).Nodup := by
  simp only [State.pop, group_change]
  split_ifs
  · exact (h.waiting_nodup cwe rule).sublist (List.dropLast_sublist _)
  · exact h.waiting_nodup c r

/-- The item that was popped is the only one that waits no more. -/
lemma Kept.pop_covered (h : Kept slot cap pool s)
    (hlast : (group s.groups cwe rule).getLast? = some it) :
    ∀ x ∈ pool, x ∈ s.picked ∨ x ∈ group (s.pop cwe rule).groups (slot x).cwe (slot x).ruleId ∨
      MAX_PER_FAMILY ≤ ofFamily slot s.picked (slot x).family ∨ x = it := by
  intro x hx
  rcases h.covered x hx with hx | hx | hx
  · exact Or.inl hx
  · simp only [State.pop, group_change]
    split_ifs with hcr
    · rw [hcr.1, hcr.2] at hx
      rcases mem_dropLast_or hlast hx with hx | hx
      · exact Or.inr (Or.inl hx)
      · exact Or.inr (Or.inr (Or.inr hx))
    · exact Or.inr (Or.inl hx)
  · exact Or.inr (Or.inr (Or.inl hx))

/-- An item of a full family is thrown away. -/
lemma Kept.drop (h : Kept slot cap pool s) (hlast : (group s.groups cwe rule).getLast? = some it)
    (hfull : MAX_PER_FAMILY ≤ s.perFamily (slot it).family) :
    Kept slot cap pool (s.pop cwe rule) where
  perRule := h.perRule
  perFamily := h.perFamily
  rule_le := h.rule_le
  family_le := h.family_le
  picked_subset := h.picked_subset
  picked_nodup := h.picked_nodup
  waiting := h.pop_waiting
  waiting_nodup := h.pop_nodup
  waiting_fresh c r x hx := h.waiting_fresh c r x (mem_group_pop hx)
  covered x hx := by
    rcases h.pop_covered hlast x hx with hx | hx | hx | rfl
    · exact Or.inl hx
    · exact Or.inr (Or.inl hx)
    · exact Or.inr (Or.inr hx)
    · exact Or.inr (Or.inr (h.perFamily _ ▸ hfull))

lemma count_apply (counter : List Char → ℕ) (k j : List Char) :
    count counter k j = counter j + if k = j then 1 else 0 := by
  unfold count
  by_cases h : k = j
  · rw [if_pos h, h, Function.update_self]
  · rw [if_neg h, Function.update_of_ne (Ne.symm h), Nat.add_zero]

lemma countP_pick (f : ι → List Char) (picked : List ι) (it : ι) (k : List Char) :
    (picked ++ [it]).countP (fun x => f x = k) =
      picked.countP (fun x => f x = k) + if f it = k then 1 else 0 := by
  rw [List.countP_append, List.countP_singleton]
  simp only [decide_eq_true_eq]

/-- An item whose rule and family are not full is picked. -/
lemma Kept.pick (h : Kept slot cap pool s) (hlast : (group s.groups cwe rule).getLast? = some it)
    (hrule : s.perRule rule < cap) (hfam : s.perFamily (slot it).family < MAX_PER_FAMILY) :
    Kept slot cap pool ((s.pop cwe rule).pick slot rule it) := by
  have hmem : it ∈ group s.groups cwe rule := List.mem_of_getLast? hlast
  obtain ⟨hpool, rfl, rfl⟩ := h.waiting cwe rule it hmem
  refine ⟨fun r => ?_, fun f => ?_, fun r => ?_, fun f => ?_, fun x hx => ?_, ?_, h.pop_waiting,
    h.pop_nodup, fun c r x hx hp => ?_, fun x hx => ?_⟩
  · calc count s.perRule (slot it).ruleId r
        = s.perRule r + if (slot it).ruleId = r then 1 else 0 := count_apply _ _ _
      _ = ofRule slot (s.picked ++ [it]) r := by rw [h.perRule]; exact (countP_pick _ _ _ _).symm
  · calc count s.perFamily (slot it).family f
        = s.perFamily f + if (slot it).family = f then 1 else 0 := count_apply _ _ _
      _ = ofFamily slot (s.picked ++ [it]) f := by rw [h.perFamily]; exact (countP_pick _ _ _ _).symm
  · -- the caps
    have hr := h.rule_le r
    rw [h.perRule] at hrule
    refine (countP_pick (fun x => (slot x).ruleId) s.picked it r).trans_le ?_
    split_ifs with he
    · exact he ▸ hrule
    · exact hr
  · have hf := h.family_le f
    rw [h.perFamily] at hfam
    refine (countP_pick (fun x => (slot x).family) s.picked it f).trans_le ?_
    split_ifs with he
    · exact he ▸ hfam
    · exact hf
  · rcases List.mem_append.mp hx with hx | hx
    · exact h.picked_subset x hx
    · exact List.mem_singleton.mp hx ▸ hpool
  · refine List.nodup_append.mpr ⟨h.picked_nodup, List.nodup_singleton it, fun x hx y hy => ?_⟩
    rw [List.mem_singleton.mp hy]
    exact fun e => h.waiting_fresh _ _ it hmem (e ▸ hx)
  · -- what waits was not picked before, and is not the new one
    rcases List.mem_append.mp hp with hp | hp
    · exact h.waiting_fresh c r x (mem_group_pop hx) hp
    · rw [List.mem_singleton.mp hp] at hx
      obtain ⟨-, rfl, rfl⟩ := h.pop_waiting c r it hx
      simp only [State.pick, State.pop, group_change, and_self, if_true] at hx
      exact notMem_dropLast hlast (h.waiting_nodup _ _) hx
  · have hmono := (countP_pick (fun x => (slot x).family) s.picked it (slot x).family).symm
    rcases h.pop_covered hlast x hx with hx | hx | hx | rfl
    · exact Or.inl (List.mem_append_left _ hx)
    · exact Or.inr (Or.inl hx)
    · exact Or.inr (Or.inr (hx.trans ((Nat.le_add_right _ _).trans_eq hmono)))
    · exact Or.inl (by simp [State.pick])

/-! ### One CWE -/

lemma mem_nonempty {groups : Groups ι} {rules : List (List Char)} {r : List Char} :
    r ∈ nonempty groups cwe rules ↔ r ∈ rules ∧ group groups cwe r ≠ [] := by
  simp [nonempty]

variable (slot cwe) in
/-- **The inner loop** ends with an item picked, or with the rules used up. -/
theorem pickFrom_spec (cap : ℕ) (pool : List ι) (rules : List (List Char)) (s : State ι)
    (h : Kept slot cap pool s)
    (hrules : ∀ r ∈ rules, group s.groups cwe r ≠ [] ∧ s.perRule r < cap) :
    ∃ s' got, pickFrom slot cwe rules s = some (s', got) ∧ Kept slot cap pool s' ∧
      ((got = true ∧ ∃ it, (slot it).cwe = cwe ∧ s'.picked = s.picked ++ [it]) ∨
        (got = false ∧ s'.picked = s.picked ∧ (∀ r ∈ rules, group s'.groups cwe r = []) ∧
          ∀ c r, ∀ x ∈ group s'.groups c r, x ∈ group s.groups c r)) := by
  induction rules, s using pickFrom.induct slot cwe with
  | case1 s =>
    exact ⟨s, false, pickFrom_nil slot cwe s, h, Or.inr ⟨rfl, rfl, by simp, fun _ _ _ hx => hx⟩⟩
  | case2 rules s hne hlast =>
    have hmem : nextRule s cwe rules hne ∈ rules := List.get_mem _ _
    exact absurd (List.getLast?_eq_none_iff.mp hlast) (hrules _ hmem).1
  | case3 rules s hne it hlast s₁ hfam =>
    have hmem : nextRule s cwe rules hne ∈ rules := List.get_mem _ _
    have hfam : s.perFamily (slot it).family < MAX_PER_FAMILY := hfam
    refine ⟨_, true, by rw [pickFrom_last slot hne hlast, if_pos hfam],
      h.pick hlast (hrules _ hmem).2 hfam, Or.inl ⟨rfl, it, ?_, rfl⟩⟩
    exact (h.waiting _ _ it (List.mem_of_getLast? hlast)).2.1
  | case4 rules s hne it hlast s₁ hfam ih =>
    have hfam : ¬ s.perFamily (slot it).family < MAX_PER_FAMILY := hfam
    obtain ⟨s', got, hrun, hkept, hout⟩ := ih (h.drop hlast (Nat.le_of_not_lt hfam)) fun r hr =>
      ⟨(mem_nonempty.mp hr).2, (hrules r (mem_nonempty.mp hr).1).2⟩
    refine ⟨s', got, by rw [pickFrom_last slot hne hlast, if_neg hfam]; exact hrun, hkept, ?_⟩
    refine hout.imp_right fun ⟨hgot, hpicked, hempty, hsub⟩ =>
      ⟨hgot, hpicked, fun r hr => ?_, fun c r x hx => mem_group_pop (hsub c r x hx)⟩
    by_cases hleft : group s₁.groups cwe r = []
    · exact List.eq_nil_iff_forall_not_mem.mpr fun x hx => by
        have := hsub cwe r x hx
        rw [hleft] at this
        cases this
    · exact hempty r (mem_nonempty.mpr ⟨hr, hleft⟩)

lemma mem_sorted {names : List (List Char)} {name : List Char} : name ∈ sorted names ↔ name ∈ names :=
  List.mem_mergeSort

lemma mem_of_group {groups : Groups ι} (h : it ∈ group groups cwe rule) :
    cwe ∈ groups.keys ∧ rule ∈ rulesOf groups cwe := by
  unfold group at h
  cases hc : groups.get cwe with
  | none => simp [hc] at h
  | some byRule =>
    cases hr : byRule.get rule with
    | none => simp [hc, hr] at h
    | some items =>
      refine ⟨Dict.mem_keys_of_get hc, ?_⟩
      rw [rulesOf, hc]
      exact mem_sorted.mpr (Dict.mem_keys_of_get hr)

/-- **One CWE of a round** gives an item, or has none left that could be added. -/
theorem turnOf_spec (h : Kept slot cap pool s) (hlen : s.picked.length < quota) (p : Bool)
    (cwe : List Char) :
    ∃ s' got, turnOf slot cap quota (s, p) cwe = some (s', p || got) ∧ Kept slot cap pool s' ∧
      ((got = true ∧ ∃ it, (slot it).cwe = cwe ∧ s'.picked = s.picked ++ [it]) ∨
        (got = false ∧ s'.picked = s.picked ∧ Exhausted slot cap pool s'.picked cwe)) := by
  have hrules : ∀ {r}, r ∈ (nonempty s.groups cwe (rulesOf s.groups cwe)).filter
      (fun rule => s.perRule rule < cap) ↔
      (r ∈ rulesOf s.groups cwe ∧ group s.groups cwe r ≠ []) ∧ s.perRule r < cap := by
    intro r
    rw [List.mem_filter, mem_nonempty, decide_eq_true_eq]
  obtain ⟨s', got, hrun, hkept, hout⟩ := pickFrom_spec slot cwe cap pool _ s h
    fun r hr => ⟨(hrules.mp hr).1.2, (hrules.mp hr).2⟩
  refine ⟨s', got, ?_, hkept, hout.imp_right fun ⟨hgot, hpicked, hempty, hsub⟩ =>
    ⟨hgot, hpicked, fun x hx hcwe => ?_⟩⟩
  · simp only [turnOf, if_neg (Nat.not_le.mpr hlen), hrun, Option.map_some]
  · rcases hkept.covered x hx with hx | hx | hx
    · exact Or.inl hx
    · -- It waits still, so its rule was left out for being full.
      have hbefore := hsub _ _ x hx
      refine Or.inr (Or.inl ?_)
      rw [hcwe] at hbefore hx
      rw [hpicked, ← h.perRule]
      by_contra hcap
      have := hempty _ (hrules.mpr ⟨⟨(mem_of_group hbefore).2, List.ne_nil_of_mem hbefore⟩,
        Nat.lt_of_not_le hcap⟩)
      rw [this] at hx
      cases hx
    · exact Or.inr (Or.inr hx)

/-! ### The rounds -/

variable (slot cap pool) in
/-- No CWE has more than one item above `k`, and one that has fewer than `k` is exhausted. -/
def Near (k : ℕ) (picked : List ι) : Prop :=
  ∀ cwe, ofCwe slot picked cwe ≤ k + 1 ∧
    (k ≤ ofCwe slot picked cwe ∨ Exhausted slot cap pool picked cwe)

variable (slot cap pool) in
/-- Between rounds: every CWE has `k` items, or fewer and is exhausted. -/
def Level (k : ℕ) (picked : List ι) : Prop :=
  ∀ cwe, ofCwe slot picked cwe ≤ k ∧
    (k ≤ ofCwe slot picked cwe ∨ Exhausted slot cap pool picked cwe)

lemma Level.near {k : ℕ} (h : Level slot cap pool k picked) : Near slot cap pool k picked :=
  fun c => ⟨Nat.le_succ_of_le (h c).1, (h c).2⟩

lemma ofCwe_le_append (more : List ι) (c : List Char) :
    ofCwe slot picked c ≤ ofCwe slot (picked ++ more) c := by
  unfold ofCwe
  rw [List.countP_append]
  exact Nat.le_add_right _ _

lemma ofCwe_pick (c : List Char) :
    ofCwe slot (picked ++ [it]) c = ofCwe slot picked c + if (slot it).cwe = c then 1 else 0 :=
  countP_pick (fun x => (slot x).cwe) picked it c

lemma Near.pick {k : ℕ} (h : Near slot cap pool k picked) (hle : ofCwe slot picked (slot it).cwe ≤ k) :
    Near slot cap pool k (picked ++ [it]) := by
  intro c
  refine ⟨?_, (h c).2.imp (fun h => h.trans (ofCwe_le_append [it] c)) fun h => h.append [it]⟩
  rw [ofCwe_pick]
  split_ifs with hc
  · exact Nat.succ_le_succ (hc ▸ hle)
  · exact (h c).1

/-- **The turns of a round**: each CWE gets an item or is exhausted, until the quota is reached. -/
theorem turns_spec {k : ℕ} (cwes : List (List Char)) (s : State ι) (p : Bool)
    (h : Kept slot cap pool s) (hlen : s.picked.length ≤ quota) (hnear : Near slot cap pool k s.picked)
    (hnodup : cwes.Nodup) (hle : ∀ c ∈ cwes, ofCwe slot s.picked c ≤ k) :
    ∃ s' p', cwes.foldlM (turnOf slot cap quota) (s, p) = some (s', p') ∧ Kept slot cap pool s' ∧
      s'.picked.length ≤ quota ∧ Near slot cap pool k s'.picked ∧ s.picked <+: s'.picked ∧
      (quota ≤ s'.picked.length ∨ ∀ c ∈ cwes,
        k + 1 ≤ ofCwe slot s'.picked c ∨ Exhausted slot cap pool s'.picked c) ∧
      (p' = false → p = false ∧ s'.picked = s.picked ∧ (s.picked.length < quota →
        ∀ c ∈ cwes, Exhausted slot cap pool s.picked c)) := by
  induction cwes generalizing s p with
  | nil =>
    exact ⟨s, p, rfl, h, hlen, hnear, List.prefix_rfl, Or.inr (by simp), fun hp => ⟨hp, rfl, by simp⟩⟩
  | cons cwe cwes ih =>
    obtain ⟨hnot, hnodup⟩ := List.nodup_cons.mp hnodup
    rw [List.foldlM_cons]
    by_cases hfull : quota ≤ s.picked.length
    · -- The loop is left.
      obtain ⟨s', p', hrun, hkept, hlen', hnear', hpre, hserved, hidle⟩ :=
        ih s p h hlen hnear hnodup fun c hc => hle c (List.mem_cons_of_mem _ hc)
      refine ⟨s', p', ?_, hkept, hlen', hnear', hpre, Or.inl (hfull.trans hpre.length_le), fun hp =>
        ⟨(hidle hp).1, (hidle hp).2.1, fun hlt => absurd hfull (Nat.not_le.mpr hlt)⟩⟩
      simp only [turnOf, if_pos hfull]
      exact hrun
    · obtain ⟨s₁, got, hturn, hkept₁, hout⟩ := turnOf_spec h (Nat.lt_of_not_le hfull) p cwe
      have hcwe := hle cwe (List.mem_cons_self ..)
      -- one turn: an item was picked, or the CWE has nothing left
      have hrest : s₁.picked.length ≤ quota ∧ Near slot cap pool k s₁.picked ∧
          s.picked <+: s₁.picked ∧ (∀ c ∈ cwes, ofCwe slot s₁.picked c ≤ k) ∧
          (k + 1 ≤ ofCwe slot s₁.picked cwe ∨ Exhausted slot cap pool s₁.picked cwe) := by
        rcases hout with ⟨-, it, rfl, hpicked⟩ | ⟨-, hpicked, hex⟩
        · rw [hpicked]
          refine ⟨by simpa using Nat.lt_of_not_le hfull, hnear.pick hcwe, List.prefix_append _ _, ?_, ?_⟩
          · intro c hc
            rw [ofCwe_pick, if_neg fun (e : (slot it).cwe = c) => hnot (e ▸ hc)]
            exact hle c (List.mem_cons_of_mem _ hc)
          · refine (hnear (slot it).cwe).2.imp (fun hk => ?_) fun hex => hex.append [it]
            rw [ofCwe_pick, if_pos rfl]
            exact Nat.succ_le_succ hk
        · rw [hpicked] at hex ⊢
          exact ⟨hlen, hnear, List.prefix_rfl, fun c hc => hle c (List.mem_cons_of_mem _ hc),
            Or.inr hex⟩
      obtain ⟨hlen₁, hnear₁, hpre₁, hle₁, hserved₁⟩ := hrest
      obtain ⟨s', p', hrun, hkept, hlen', hnear', hpre, hserved, hidle⟩ :=
        ih s₁ (p || got) hkept₁ hlen₁ hnear₁ hnodup hle₁
      refine ⟨s', p', by rw [hturn]; exact hrun, hkept, hlen', hnear', hpre₁.trans hpre, ?_, fun hp => ?_⟩
      · -- what the CWE got in this turn it keeps
        refine hserved.imp_right fun hserved c hc => ?_
        rcases List.mem_cons.mp hc with rfl | hc
        · obtain ⟨more, hmore⟩ := hpre
          rw [← hmore]
          exact hserved₁.imp (fun h => h.trans (ofCwe_le_append more c)) fun h => h.append more
        · exact hserved c hc
      · obtain ⟨hgot, hsame, hexs⟩ := hidle hp
        obtain ⟨rfl, rfl⟩ : p = false ∧ got = false := by simpa using hgot
        obtain ⟨-, hpicked, hex⟩ := hout.resolve_left fun h => Bool.false_ne_true h.1
        rw [hpicked] at hsame hexs hex
        refine ⟨rfl, hsame, fun hlt c hc => ?_⟩
        rcases List.mem_cons.mp hc with rfl | hc
        · exact hex
        · exact hexs hlt c hc

lemma sorted_nodup {names : List (List Char)} (h : names.Nodup) : (sorted names).Nodup :=
  (List.mergeSort_perm _ _).nodup_iff.mpr h

/-- A CWE that is not among the groups has nothing left. -/
lemma Kept.exhausted_of_notMem (h : Kept slot cap pool s) (hc : cwe ∉ s.groups.keys) :
    Exhausted slot cap pool s.picked cwe := by
  rintro x hx rfl
  rcases h.covered x hx with hx | hx | hx
  · exact Or.inl hx
  · exact absurd (mem_of_group hx).1 hc
  · exact Or.inr (Or.inr hx)

/-- **A round** lifts the level by one or reaches the quota; one that picks nothing leaves nothing that
could be added. -/
theorem round_spec {k : ℕ} (h : Kept slot cap pool s) (hlen : s.picked.length < quota)
    (hlevel : Level slot cap pool k s.picked) :
    ∃ s' p, round slot cap quota s = some (s', p) ∧ Kept slot cap pool s' ∧
      s'.picked.length ≤ quota ∧
      (Level slot cap pool (k + 1) s'.picked ∨
        quota ≤ s'.picked.length ∧ Near slot cap pool k s'.picked) ∧
      (p = false → ∀ c, Exhausted slot cap pool s'.picked c) := by
  obtain ⟨s', p, hrun, hkept, hlen', hnear, ⟨more, hmore⟩, hserved, hidle⟩ :=
    turns_spec (sorted s.groups.keys) s false h hlen.le hlevel.near (sorted_nodup s.groups.keys_nodup)
      fun c _ => (hlevel c).1
  refine ⟨s', p, hrun, hkept, hlen', ?_, fun hp c => ?_⟩
  · rcases hserved with hfull | hserved
    · exact Or.inr ⟨hfull, hnear⟩
    · refine Or.inl fun c => ⟨(hnear c).1, ?_⟩
      by_cases hc : c ∈ s.groups.keys
      · exact hserved c (mem_sorted.mpr hc)
      · exact Or.inr (hmore ▸ (h.exhausted_of_notMem hc).append more)
  · obtain ⟨-, hsame, hexs⟩ := hidle hp
    rw [hsame]
    by_cases hc : c ∈ s.groups.keys
    · exact hexs hlen c (mem_sorted.mpr hc)
    · exact h.exhausted_of_notMem hc

/-- **The rounds** end, with the quota reached or nothing left that could be added. -/
theorem rounds_spec (n k : ℕ) (s : State ι) (hn : quota - s.picked.length ≤ n)
    (h : Kept slot cap pool s) (hlen : s.picked.length ≤ quota)
    (hlevel : Level slot cap pool k s.picked ∨
      quota ≤ s.picked.length ∧ Near slot cap pool k s.picked) :
    ∃ s', rounds slot cap quota s = some s'.picked ∧ Kept slot cap pool s' ∧
      s'.picked.length ≤ quota ∧ (∃ k, Near slot cap pool k s'.picked) ∧
      (s'.picked.length < quota → ∀ c, Exhausted slot cap pool s'.picked c) := by
  induction n generalizing k s with
  | zero =>
    have hfull : ¬ s.picked.length < quota := by omega
    refine ⟨s, by rw [rounds, if_neg hfull], h, hlen, ⟨k, ?_⟩, fun hlt => absurd hlt hfull⟩
    exact hlevel.elim Level.near And.right
  | succ n ih =>
    by_cases hlt : s.picked.length < quota
    · have hlevel := hlevel.resolve_right fun h => absurd hlt (Nat.not_lt.mpr h.1)
      obtain ⟨s', p, hround, hkept, hlen', hlevel', hidle⟩ := round_spec h hlt hlevel
      rw [rounds_of_round slot hlt hround]
      cases p with
      | true =>
        have hgrow := length_round slot hround
        exact hlevel'.elim (fun hl => ih (k + 1) s' (by omega) hkept hlen' (Or.inl hl))
          fun hl => ih k s' (by omega) hkept hlen' (Or.inr hl)
      | false =>
        exact ⟨s', rfl, hkept, hlen', hlevel'.elim (fun hl => ⟨k + 1, hl.near⟩) fun hl => ⟨k, hl.2⟩,
          fun _ => hidle rfl⟩
    · refine ⟨s, by rw [rounds, if_neg hlt], h, hlen, ⟨k, ?_⟩, fun h => absurd h hlt⟩
      exact hlevel.elim Level.near And.right

/-! ### The groups -/

lemma group_grouped (items : List ι) (groups : Groups ι) (c r : List Char) :
    group (items.foldl (fun groups it => change groups (slot it).cwe (slot it).ruleId (· ++ [it])) groups)
      c r = group groups c r ++ items.filter fun it => c = (slot it).cwe ∧ r = (slot it).ruleId := by
  induction items generalizing groups with
  | nil => simp
  | cons it items ih =>
    rw [List.foldl_cons, ih, group_change, List.filter_cons]
    simp only [decide_eq_true_eq]
    split_ifs with h
    · rw [h.1, h.2, List.append_assoc, List.singleton_append]
    · rfl

lemma mem_grouped {x : ι} (c r : List Char) :
    x ∈ group (grouped slot pool) c r ↔ x ∈ pool ∧ (slot x).cwe = c ∧ (slot x).ruleId = r := by
  rw [grouped, group_grouped, group_empty, List.nil_append, List.mem_filter, List.mem_mergeSort,
    decide_eq_true_eq]
  exact and_congr_right fun _ => and_congr eq_comm eq_comm

lemma nodup_grouped (h : pool.Nodup) (c r : List Char) : (group (grouped slot pool) c r).Nodup := by
  rw [grouped, group_grouped, group_empty, List.nil_append]
  exact ((List.mergeSort_perm _ _).nodup_iff.mpr h).filter _

lemma group_shuffled (rng : Shuffle) (groups : Groups ι) (c r : List Char) :
    (group (shuffled rng groups) c r).Perm (group groups c r) := by
  have hinner := fun past (byRule : Dict (List Char) (List ι)) =>
    Dict.get_visit (r := fun xs ys : List ι => ys.Perm xs) (f := shuffle rng)
      (fun past xs => shuffle_perm rng past xs) past byRule
  have houter := Dict.get_visit (r := fun d e : Dict (List Char) (List ι) =>
    ∀ k, Option.Rel (fun xs ys : List ι => ys.Perm xs) (d.get k) (e.get k))
    (f := fun past byRule => byRule.visit (shuffle rng) past) hinner [] groups c
  unfold group shuffled
  generalize groups.get c = d at houter ⊢
  generalize (groups.visit (fun past byRule => byRule.visit (shuffle rng) past) []).2.get c = e
    at houter ⊢
  cases houter with
  | none => exact List.Perm.refl _
  | some hrel =>
    have hrel := hrel r
    simp only [Option.bind_some]
    generalize Dict.get _ r = xs at hrel ⊢
    generalize Dict.get _ r = ys at hrel ⊢
    cases hrel with
    | none => exact List.Perm.refl _
    | some hperm => exact hperm

variable (slot cap) in
lemma kept_start (rng : Shuffle) (hnodup : pool.Nodup) :
    Kept slot cap pool ⟨shuffled rng (grouped slot pool), fun _ => 0, fun _ => 0, fun _ => 0, []⟩ where
  perRule _ := rfl
  perFamily _ := rfl
  rule_le _ := Nat.zero_le _
  family_le _ := Nat.zero_le _
  picked_subset := by simp
  picked_nodup := List.nodup_nil
  waiting c r x hx := (mem_grouped c r).mp ((group_shuffled rng _ c r).mem_iff.mp hx)
  waiting_nodup c r := (group_shuffled rng _ c r).nodup_iff.mpr (nodup_grouped hnodup c r)
  waiting_fresh := by simp
  covered x hx := Or.inr (Or.inl ((group_shuffled rng _ _ _).mem_iff.mpr
    ((mem_grouped _ _).mpr ⟨hx, rfl, rfl⟩)))

/-! ### The choice -/

lemma picked_subset {rng : Shuffle} {share : ℕ → ℕ} {picked : List ι}
    (hkeys : (pool.map fun it => (slot it).key).Nodup) (h : select slot rng share pool quota = some picked) :
    ∀ it ∈ picked, it ∈ pool := by
  have hstart := kept_start slot (max 1 (share quota)) rng hkeys.of_map
  obtain ⟨s, hrun, hkept, -⟩ := rounds_spec quota 0 _ (Nat.sub_le _ _) hstart
    (Nat.zero_le _) (Or.inl fun _ => ⟨le_rfl, Or.inl le_rfl⟩)
  obtain rfl := Option.some.inj (hrun.symm.trans h)
  exact hkept.picked_subset

variable (slot) in
/-- **`select` is a bounded, duplicate-free, maximal and balanced choice**: for every pool of items with
distinct keys and every shuffle the loop ends without an exception, within the quota and the caps; where
the quota is not reached nothing that was left out could be added, nor could an item of a CWE that got
two items fewer than another. -/
theorem select_spec (rng : Shuffle) (share : ℕ → ℕ) (pool : List ι) (quota : ℕ)
    (hkeys : (pool.map fun it => (slot it).key).Nodup) :
    ∃ picked, select slot rng share pool quota = some picked ∧ picked.length ≤ quota ∧
      (∀ it ∈ picked, it ∈ pool) ∧ (picked.map fun it => (slot it).key).Nodup ∧
      (∀ rule, ofRule slot picked rule ≤ max 1 (share quota)) ∧
      (∀ family, ofFamily slot picked family ≤ MAX_PER_FAMILY) ∧
      (picked.length < quota → ∀ it ∈ pool, it ∉ picked →
        Blocked slot (max 1 (share quota)) picked it) ∧
      ∀ c d, ofCwe slot picked c + 2 ≤ ofCwe slot picked d → ∀ it ∈ pool, (slot it).cwe = c →
        it ∉ picked → Blocked slot (max 1 (share quota)) picked it := by
  have hstart := kept_start slot (max 1 (share quota)) rng hkeys.of_map
  obtain ⟨s, hrun, hkept, hlen, ⟨k, hnear⟩, hmax⟩ := rounds_spec quota 0 _ (Nat.sub_le _ _) hstart
    (Nat.zero_le _) (Or.inl fun _ => ⟨le_rfl, Or.inl le_rfl⟩)
  refine ⟨s.picked, hrun, hlen, hkept.picked_subset, ?_, hkept.rule_le, hkept.family_le,
    fun hlt it hit hnot => ?_, fun c d hcd it hit hc hnot => ?_⟩
  · exact hkept.picked_nodup.map_on fun x hx y hy hxy => List.inj_on_of_nodup_map hkeys
      (hkept.picked_subset x hx) (hkept.picked_subset y hy) hxy
  · exact (hmax hlt _ it hit rfl).resolve_left hnot
  · -- No CWE is more than one item above the level, so `c` is below it.
    have hc' : ¬ k ≤ ofCwe slot s.picked c := by
      have := (hnear d).1
      omega
    exact ((hnear c).2.resolve_left hc' it hit hc).resolve_left hnot

/-- Two items of one rule, of which a quota of two with a cap of one leaves one out. -/
theorem select_spec_pair :
    ∃ picked, select id (fun _ _ => Equiv.refl _) (· / 5)
        [⟨"b".toList, "121".toList, "r".toList, "f".toList⟩,
          ⟨"a".toList, "121".toList, "r".toList, "g".toList⟩] 2 = some picked ∧
      picked.length ≤ 2 ∧ ofRule id picked "r".toList ≤ 1 := by
  obtain ⟨picked, hrun, hlen, -, -, hrule, -⟩ := select_spec id
    (fun _ _ => Equiv.refl _) (· / 5) [⟨"b".toList, "121".toList, "r".toList, "f".toList⟩,
      ⟨"a".toList, "121".toList, "r".toList, "g".toList⟩] 2 (by decide)
  exact ⟨picked, hrun, hlen, hrule "r".toList⟩

end

end CSecureBuild.Harness.Select
