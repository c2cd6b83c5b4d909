import CSecureBuild.Harness.Selection

/-!
`select` of `llm-eval/harness/build_items.py`: in turn over the CWEs and over the rules of each, within a cap on
each rule. It does not know families, and takes the items in the order in which they come.

Its rounds are those of `select` of `build_v2.py` over the places of the pool, each its own key and its own family
(`rounds_plain`), so that what is known of the one holds of the other: the choice is bounded, takes no place twice,
is maximal and balanced (`rotation_spec`).
-/

namespace CSecureBuild.Harness.Rotation

open CSecureBuild.PyLib.Containers CSecureBuild.Harness.Selection
open CSecureBuild.Harness.Select (Slot Groups Kept MAX_PER_FAMILY Blocked group change rulesOf nonempty count sorted
  shuffled ofRule ofCwe ofFamily)

/-! ### The program -/

/-- What `select` reads of an item. -/
structure Kind where
  cwe : List Char
  ruleId : List Char
  deriving DecidableEq

section

variable {ι : Type} (kind : ι → Kind)

/-- The items by their CWE and rule. -/
def grouped (pool : List ι) : Groups ι :=
  pool.foldl (fun groups it => change groups (kind it).cwe (kind it).ruleId (· ++ [it])) Dict.empty

/-- What the loop changes. -/
structure State (ι : Type) where
  groups : Groups ι
  turn : List Char → ℕ
  taken : List Char → ℕ
  picked : List ι

/-- The rule whose turn it is. -/
def nextRule (s : State ι) (cwe : List Char) (rules : List (List Char)) (h : rules ≠ []) : List Char :=
  rules.get ⟨s.turn cwe % rules.length, Nat.mod_lt _ (List.length_pos_iff.mpr h)⟩

/-- The last item of a rule is picked. `none` is an `IndexError`. -/
def State.pick (s : State ι) (cwe rule : List Char) : Option (State ι) :=
  (group s.groups cwe rule).getLast?.map fun it =>
    ⟨change s.groups cwe rule List.dropLast, count s.turn cwe, count s.taken rule, s.picked ++ [it]⟩

/-- One CWE of a round, of which `rules` are not used up and not full. -/
def turnFrom (total : ℕ) (cwe : List Char) (rules : List (List Char)) (st : State ι × Bool) :
    Option (State ι × Bool) :=
  if h : rules = [] then some st
  else if total ≤ st.1.picked.length then some st
  else (st.1.pick cwe (nextRule st.1 cwe rules h)).map fun s => (s, true)

/-- One CWE of a round. -/
def turnOf (cap total : ℕ) (st : State ι × Bool) (cwe : List Char) : Option (State ι × Bool) :=
  turnFrom total cwe ((nonempty st.1.groups cwe (rulesOf st.1.groups cwe)).filter fun rule => st.1.taken rule < cap) st

/-- A round over the CWEs, and whether it picked anything. -/
def round (cap total : ℕ) (s : State ι) : Option (State ι × Bool) :=
  (sorted s.groups.keys).foldlM (turnOf cap total) (s, false)

lemma length_turnOf {cap total : ℕ} {s s' : State ι} {p p' : Bool} {cwe : List Char}
    (h : turnOf cap total (s, p) cwe = some (s', p')) :
    s.picked.length ≤ s'.picked.length ∧ (p' = true → p = true ∨ s.picked.length < s'.picked.length) := by
  unfold turnOf turnFrom at h
  split_ifs at h
  · cases h
    exact ⟨le_rfl, Or.inl⟩
  · cases h
    exact ⟨le_rfl, Or.inl⟩
  · obtain ⟨s₁, hpick, h⟩ := Option.map_eq_some_iff.mp h
    cases h
    obtain ⟨it, -, rfl⟩ := Option.map_eq_some_iff.mp hpick
    simp

lemma length_round {cap total : ℕ} {s s' : State ι} (h : round cap total s = some (s', true)) :
    s.picked.length < s'.picked.length := by
  have hfold : ∀ (cwes : List (List Char)) (s : State ι) (p : Bool) (s' : State ι) (p' : Bool),
      cwes.foldlM (turnOf cap total) (s, p) = some (s', p') →
      s.picked.length ≤ s'.picked.length ∧ (p' = true → p = true ∨ s.picked.length < s'.picked.length) := by
    intro cwes
    induction cwes with
    | nil =>
      intro s p s' p' h
      cases h
      exact ⟨le_rfl, Or.inl⟩
    | cons cwe cwes ih =>
      intro s p s' p' h
      rw [List.foldlM_cons] at h
      obtain ⟨⟨s₁, p₁⟩, hturn, hrest⟩ := Option.bind_eq_some_iff.mp h
      obtain ⟨h₁, h₂⟩ := length_turnOf hturn
      obtain ⟨h₃, h₄⟩ := ih s₁ p₁ s' p' hrest
      refine ⟨h₁.trans h₃, fun hp => ?_⟩
      rcases h₄ hp with h₄ | h₄
      · exact (h₂ h₄).imp_right fun h => h.trans_le h₃
      · exact Or.inr (h₁.trans_lt h₄)
  exact ((hfold _ s false s' true h).2 rfl).resolve_left (by decide)

/-- The rounds, until there are enough items or a round picks nothing. -/
def rounds (cap total : ℕ) (s : State ι) : Option (List ι) :=
  if s.picked.length < total then
    match _hround : round cap total s with
    | none => none
    | some (s', true) => rounds cap total s'
    | some (s', false) => some s'.picked
  else some s.picked
termination_by total - s.picked.length
decreasing_by
  have := length_round _hround
  omega

/-- `select`, where `share` gives `int(total * MAX_RULE_SHARE)`. -/
def select (rng : Shuffle) (share : ℕ → ℕ) (pool : List ι) (total : ℕ) : Option (List ι) :=
  rounds (share total) total ⟨shuffled rng (grouped kind pool), fun _ => 0, fun _ => 0, []⟩

lemma rounds_of_round {cap total : ℕ} {s s' : State ι} {p : Bool} (h : s.picked.length < total)
    (hround : round cap total s = some (s', p)) :
    rounds cap total s = if p then rounds cap total s' else some s'.picked := by
  rw [rounds, if_pos h]
  split
  · next hnone => rw [hround] at hnone; cases hnone
  · next hsome => cases hround.symm.trans hsome; rfl
  · next hsome => cases hround.symm.trans hsome; rfl

lemma rounds_of_none {cap total : ℕ} {s : State ι} (h : s.picked.length < total)
    (hround : round cap total s = none) : rounds cap total s = none := by
  rw [rounds, if_pos h]
  split
  · rfl
  · next hsome => cases hround.symm.trans hsome
  · next hsome => cases hround.symm.trans hsome

lemma rounds_of_full {cap total : ℕ} {s : State ι} (h : ¬ s.picked.length < total) :
    rounds cap total s = some s.picked := by
  rw [rounds, if_neg h]

end

/-! ### Places -/

section

variable {ι : Type} {kind : ι → Kind}

/-- A key for each place, in their order. -/
def placeKey (i : ℕ) : List Char := List.replicate i 'a'

lemma placeKey_injective : Function.Injective placeKey := fun i j h => by
  simpa [placeKey] using congrArg List.length h

lemma placeKey_mono {i j : ℕ} (h : i ≤ j) : placeKey i ≤ placeKey j := by
  obtain ⟨k, rfl⟩ := Nat.exists_eq_add_of_le h
  unfold placeKey
  rw [List.replicate_add]
  refine not_lt.mp fun hlt => ?_
  have hself : List.replicate i 'a' ++ List.replicate k 'a' < List.replicate i 'a' ++ List.replicate k 'a' :=
    List.Lex.append_right _ _ hlt
  exact lt_irrefl _ hself

variable (kind) in
/-- An item at a place, which is its key and its family. -/
def slotOf (p : ι × ℕ) : Slot := ⟨placeKey p.2, (kind p.1).cwe, (kind p.1).ruleId, placeKey p.2⟩

/-- The state without the places. -/
def plain (s : Select.State (ι × ℕ)) : State ι :=
  ⟨mapGroups Prod.fst s.groups, s.turn, s.perRule, s.picked.map Prod.fst⟩

lemma pairwise_zipIdx (pool : List ι) (k : ℕ) : (pool.zipIdx k).Pairwise fun p q => p.2 ≤ q.2 := by
  induction pool generalizing k with
  | nil => exact List.Pairwise.nil
  | cons it pool ih =>
    rw [List.zipIdx_cons]
    exact List.pairwise_cons.mpr ⟨fun q hq => (Nat.le_succ k).trans (List.le_snd_of_mem_zipIdx hq), ih (k + 1)⟩

lemma grouped_places (pool : List ι) :
    mapGroups Prod.fst (Select.grouped (slotOf kind) pool.zipIdx) = grouped kind pool := by
  have hfold : ∀ (places : List (ι × ℕ)) (groups : Groups (ι × ℕ)),
      mapGroups Prod.fst (places.foldl (fun groups p =>
        change groups (slotOf kind p).cwe (slotOf kind p).ruleId (· ++ [p])) groups) =
      (places.map Prod.fst).foldl (fun groups it => change groups (kind it).cwe (kind it).ruleId (· ++ [it]))
        (mapGroups Prod.fst groups) := by
    intro places
    induction places with
    | nil => exact fun _ => rfl
    | cons p places ih =>
      intro groups
      have happend : change (mapGroups Prod.fst groups) (kind p.1).cwe (kind p.1).ruleId (· ++ [p.1]) =
          mapGroups Prod.fst (change groups (kind p.1).cwe (kind p.1).ruleId (· ++ [p])) :=
        change_mapGroups (fun items => by simp) groups _ _
      rw [List.foldl_cons, ih, List.map_cons, List.foldl_cons, happend]
      rfl
  have hsorted : pool.zipIdx.mergeSort (fun p q => decide ((slotOf kind p).key ≤ (slotOf kind q).key)) =
      pool.zipIdx := by
    refine List.mergeSort_of_pairwise ?_
    exact (pairwise_zipIdx pool 0).imp fun h => decide_eq_true (placeKey_mono h)
  unfold Select.grouped grouped
  rw [hsorted, hfold, List.zipIdx_map_fst]
  rfl

/-! ### The two programs -/

variable {cap total : ℕ} {pool : List ι} {s s' : Select.State (ι × ℕ)} {cwe rule : List Char}

/-- The family of a place has only this place. -/
lemma ofFamily_place {picked : List (ι × ℕ)} (hpicked : ∀ q ∈ picked, q ∈ pool.zipIdx) {p : ι × ℕ}
    (hp : p ∈ pool.zipIdx) (hnot : p ∉ picked) : ofFamily (slotOf kind) picked (slotOf kind p).family = 0 := by
  unfold ofFamily
  rw [List.countP_eq_zero]
  intro q hq hsame
  rw [decide_eq_true_eq] at hsame
  have hplace : q.2 = p.2 := placeKey_injective hsame
  have hpq : q = p := by
    obtain ⟨x, i⟩ := q
    obtain ⟨y, j⟩ := p
    obtain rfl : i = j := hplace
    have hx := List.mk_mem_zipIdx_iff_getElem?.mp (hpicked _ hq)
    have hy := List.mk_mem_zipIdx_iff_getElem?.mp hp
    rw [hx] at hy
    rw [Option.some.inj hy]
  exact hnot (hpq ▸ hq)

lemma not_full (h : Kept (slotOf kind) cap pool.zipIdx s) {p : ι × ℕ} (hp : p ∈ group s.groups cwe rule) :
    s.perFamily (slotOf kind p).family < MAX_PER_FAMILY := by
  obtain ⟨hpool, -, -⟩ := h.waiting cwe rule p hp
  rw [h.perFamily, ofFamily_place h.picked_subset hpool (h.waiting_fresh cwe rule p hp)]
  decide

lemma turnFrom_plain (h : Kept (slotOf kind) cap pool.zipIdx s) (hlt : s.picked.length < total) (p : Bool)
    (cwe : List Char) (rules : List (List Char)) :
    turnFrom total cwe rules (plain s, p) =
      (Select.pickFrom (slotOf kind) cwe rules s).map fun q => (plain q.1, p || q.2) := by
  have hlength : (plain s).picked.length = s.picked.length := List.length_map _
  unfold turnFrom
  by_cases hne : rules = []
  · subst hne
    rw [dif_pos rfl, Select.pickFrom_nil, Option.map_some, Bool.or_false]
  have hroom : ¬ total ≤ (plain s).picked.length := by
    rw [hlength]
    exact Nat.not_le.mpr hlt
  rw [dif_neg hne, if_neg hroom]
  have hgroup : group (plain s).groups cwe (nextRule (plain s) cwe rules hne) =
      (group s.groups cwe (Select.nextRule s cwe rules hne)).map Prod.fst := group_mapGroups ..
  unfold State.pick
  rw [hgroup, List.getLast?_map]
  cases hlast : (group s.groups cwe (Select.nextRule s cwe rules hne)).getLast? with
  | none =>
    rw [Select.pickFrom_empty _ hne hlast]
    rfl
  | some it =>
    -- A family has one place, so its place is not refused.
    rw [Select.pickFrom_last _ hne hlast, if_pos (not_full h (List.mem_of_getLast? hlast))]
    have hchange : change (plain s).groups cwe (nextRule (plain s) cwe rules hne) List.dropLast =
        mapGroups Prod.fst (change s.groups cwe (Select.nextRule s cwe rules hne) List.dropLast) :=
      change_mapGroups (fun items => List.map_dropLast) s.groups cwe _
    have hpicked : (plain s).picked ++ [it.1] = (s.picked ++ [it]).map Prod.fst := by
      rw [List.map_append]
      rfl
    simp only [Option.map_some, Bool.or_true, hchange, hpicked]
    rfl

/-- **One CWE of a round** goes the same way in both. -/
lemma turnOf_plain (h : Kept (slotOf kind) cap pool.zipIdx s) (p : Bool) (cwe : List Char) :
    turnOf cap total (plain s, p) cwe =
      (Select.turnOf (slotOf kind) cap total (s, p) cwe).map fun q => (plain q.1, q.2) := by
  have hrules : (nonempty (plain s).groups cwe (rulesOf (plain s).groups cwe)).filter
      (fun rule => (plain s).taken rule < cap) =
        (nonempty s.groups cwe (rulesOf s.groups cwe)).filter fun rule => s.perRule rule < cap := by
    unfold plain
    rw [rulesOf_mapGroups, nonempty_mapGroups]
  unfold turnOf Select.turnOf
  rw [hrules]
  by_cases hfull : total ≤ s.picked.length
  · have hlength : total ≤ (plain s).picked.length := hfull.trans_eq (List.length_map _).symm
    unfold turnFrom
    simp only [if_pos hfull, if_pos hlength, dite_eq_ite, ite_self]
    rfl
  · rw [turnFrom_plain h (Nat.lt_of_not_le hfull)]
    simp only [if_neg hfull, Option.map_map]
    rfl

/-- The invariant after one CWE of a round. -/
lemma kept_turnOf (h : Kept (slotOf kind) cap pool.zipIdx s) {p : Bool} {q : Select.State (ι × ℕ) × Bool}
    (hturn : Select.turnOf (slotOf kind) cap total (s, p) cwe = some q) : Kept (slotOf kind) cap pool.zipIdx q.1 := by
  by_cases hfull : total ≤ s.picked.length
  · simp only [Select.turnOf, if_pos hfull] at hturn
    cases hturn
    exact h
  · obtain ⟨s₁, got, hrun, hkept, -⟩ := Select.turnOf_spec h (Nat.lt_of_not_le hfull) p cwe
    cases hrun.symm.trans hturn
    exact hkept

/-- **A round** goes the same way in both, and keeps the invariant. -/
lemma round_plain (h : Kept (slotOf kind) cap pool.zipIdx s) :
    round cap total (plain s) = (Select.round (slotOf kind) cap total s).map (fun q => (plain q.1, q.2)) ∧
      ∀ q, Select.round (slotOf kind) cap total s = some q → Kept (slotOf kind) cap pool.zipIdx q.1 := by
  have hfold : ∀ (cwes : List (List Char)) (s : Select.State (ι × ℕ)) (p : Bool),
      Kept (slotOf kind) cap pool.zipIdx s →
      cwes.foldlM (turnOf cap total) (plain s, p) =
        (cwes.foldlM (Select.turnOf (slotOf kind) cap total) (s, p)).map (fun q => (plain q.1, q.2)) ∧
      ∀ q, cwes.foldlM (Select.turnOf (slotOf kind) cap total) (s, p) = some q →
        Kept (slotOf kind) cap pool.zipIdx q.1 := by
    intro cwes
    induction cwes with
    | nil =>
      intro s p h
      refine ⟨rfl, fun q hq => ?_⟩
      cases hq
      exact h
    | cons cwe cwes ih =>
      intro s p h
      rw [List.foldlM_cons, List.foldlM_cons, turnOf_plain h]
      cases hturn : Select.turnOf (slotOf kind) cap total (s, p) cwe with
      | none => exact ⟨rfl, fun q hq => by cases hq⟩
      | some q => exact ih q.1 q.2 (kept_turnOf h hturn)
  have hkeys : (plain s).groups.keys = s.groups.keys := Dict.keys_map _ s.groups
  unfold round Select.round
  rw [hkeys]
  exact hfold _ s false h

/-- **The rounds** give the same items. -/
lemma rounds_plain (h : Kept (slotOf kind) cap pool.zipIdx s) :
    rounds cap total (plain s) = (Select.rounds (slotOf kind) cap total s).map (List.map Prod.fst) := by
  have hlength : ∀ s : Select.State (ι × ℕ), (plain s).picked.length = s.picked.length := fun s => List.length_map _
  induction s using Select.rounds.induct (slotOf kind) cap total with
  | case1 s hlt hround =>
    have hround' : round cap total (plain s) = none := by
      rw [(round_plain h).1, hround]
      rfl
    rw [Selection.rounds_of_none hlt hround, rounds_of_none (by rwa [hlength]) hround']
    rfl
  | case2 s hlt s' hround ih =>
    have hround' : round cap total (plain s) = some (plain s', true) := by
      rw [(round_plain h).1, hround]
      rfl
    rw [Select.rounds_of_round _ hlt hround, rounds_of_round (by rwa [hlength]) hround']
    exact ih ((round_plain h).2 _ hround)
  | case3 s hlt s' hround =>
    have hround' : round cap total (plain s) = some (plain s', false) := by
      rw [(round_plain h).1, hround]
      rfl
    rw [Select.rounds_of_round _ hlt hround, rounds_of_round (by rwa [hlength]) hround']
    rfl
  | case4 s hlt =>
    rw [Selection.rounds_of_full hlt, rounds_of_full (by rwa [hlength])]
    rfl

lemma nodup_zipIdx (pool : List ι) : pool.zipIdx.Nodup := by
  refine List.Nodup.of_map Prod.snd ?_
  rw [List.zipIdx_map_snd]
  exact List.nodup_range'

variable (kind) in
/-- **`select` of `build_items.py`** chooses places of the pool: whatever the items are, the same ones among them
included, it ends without an exception, takes no place twice, and stays within the total and the cap on each rule.
Below the total, every place that is left out has a full rule, and so has one of a CWE that got two items fewer than
another. -/
theorem rotation_spec (rng : Shuffle) (share : ℕ → ℕ) (pool : List ι) (total : ℕ) :
    ∃ chosen : List (ι × ℕ), select kind rng share pool total = some (chosen.map Prod.fst) ∧
      chosen.length ≤ total ∧ chosen.Nodup ∧ (∀ p ∈ chosen, p ∈ pool.zipIdx) ∧
      (∀ rule, (chosen.map Prod.fst).countP (fun it => (kind it).ruleId = rule) ≤ share total) ∧
      (chosen.length < total → ∀ p ∈ pool.zipIdx, p ∉ chosen →
        (chosen.map Prod.fst).countP (fun it => (kind it).ruleId = (kind p.1).ruleId) = share total) ∧
      ∀ c d, (chosen.map Prod.fst).countP (fun it => (kind it).cwe = c) + 2 ≤
          (chosen.map Prod.fst).countP (fun it => (kind it).cwe = d) →
        ∀ p ∈ pool.zipIdx, (kind p.1).cwe = c → p ∉ chosen →
          (chosen.map Prod.fst).countP (fun it => (kind it).ruleId = (kind p.1).ruleId) = share total := by
  have hstart := Select.kept_start (slotOf kind) (share total) rng (nodup_zipIdx pool)
  obtain ⟨s, hrun, hkept, hlen, ⟨k, hnear⟩, hmax⟩ := Select.rounds_spec total 0 _ (Nat.sub_le _ _) hstart
    (Nat.zero_le _) (Or.inl fun _ => ⟨le_rfl, Or.inl le_rfl⟩)
  -- the places are picked as the items are
  have hselect : select kind rng share pool total = some (s.picked.map Prod.fst) := by
    have hgroups : shuffled rng (grouped kind pool) =
        mapGroups Prod.fst (shuffled rng (Select.grouped (slotOf kind) pool.zipIdx)) := by
      rw [← grouped_places, shuffled_map]
    calc select kind rng share pool total
        = rounds (share total) total (plain ⟨shuffled rng (Select.grouped (slotOf kind) pool.zipIdx),
            fun _ => 0, fun _ => 0, fun _ => 0, []⟩) := by
          unfold select
          rw [hgroups]
          rfl
      _ = some (s.picked.map Prod.fst) := by
          rw [rounds_plain hstart, hrun]
          rfl
  -- no place is refused for its family, so that its rule is full
  have hfull : ∀ p ∈ pool.zipIdx, p ∉ s.picked → Blocked (slotOf kind) (share total) s.picked p →
      ofRule (slotOf kind) s.picked (kind p.1).ruleId = share total := by
    intro p hp hnot hblocked
    refine le_antisymm (hkept.rule_le _) (hblocked.resolve_right fun hfamily => ?_)
    rw [ofFamily_place hkept.picked_subset hp hnot] at hfamily
    exact absurd hfamily (by decide)
  refine ⟨s.picked, hselect, hlen, hkept.picked_nodup, hkept.picked_subset, fun rule => ?_,
    fun hlt p hp hnot => ?_, fun c d hcd p hp hc hnot => ?_⟩ <;> simp only [List.countP_map] at *
  · exact hkept.rule_le rule
  · exact hfull p hp hnot ((hmax hlt _ p hp rfl).resolve_left hnot)
  · -- No CWE is more than one item above the level, so `c` is below it.
    have hc' : ¬ k ≤ ofCwe (slotOf kind) s.picked c := by
      have hd : ofCwe (slotOf kind) s.picked d ≤ k + 1 := (hnear d).1
      have hcd : ofCwe (slotOf kind) s.picked c + 2 ≤ ofCwe (slotOf kind) s.picked d := hcd
      omega
    exact hfull p hp hnot (((hnear c).2.resolve_left hc' p hp hc).resolve_left hnot)

end

end CSecureBuild.Harness.Rotation
