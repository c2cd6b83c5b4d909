import CSecureBuild.PyLib.Containers

/-!
The tables of `llm-eval/harness/stats.py`, before formatting: `row`, `filter_row` and `wilson`. The
latencies, tokens and costs are rational numbers. The limits that `wilson` gives are reals, and are the roots
of the equation that defines the score interval (`wilson_is_score_interval`).
-/

namespace CSecureBuild.Harness.Stats

open CSecureBuild.PyLib.Containers

/-! ### Items and results -/

/-- What is read of an item. -/
structure Item (κ : Type) where
  id : κ
  label : List Char
  source : List Char
  deriving DecidableEq

/-- What is read of a record. A field that is missing or null is `none`. -/
structure Record where
  verdict : Option (List Char)
  latency : Option ℚ
  tokens : Option ℚ
  cost : Option ℚ
  deriving DecidableEq

section

variable {κ : Type} [DecidableEq κ]

/-- The items with a label. -/
def labelled (label : String) (items : List (Item κ)) : List (Item κ) :=
  items.filter fun i => i.label = label.toList

/-- `(res.get(id) or {}).get("verdict")` -/
def verdictOf (res : Dict κ Record) (id : κ) : Option (List Char) := (res.get id).bind Record.verdict

/-- How many items have a verdict. -/
def countVerdict (res : Dict κ Record) (verdict : String) (items : List (Item κ)) : ℕ :=
  items.countP fun i => verdictOf res i.id = some verdict.toList

/-- `res.values()` -/
def values (res : Dict κ Record) : List Record := res.entries.map Prod.snd

/-- The latencies that are not zero. -/
def latencies (res : Dict κ Record) : List ℚ := ((values res).filterMap Record.latency).filter (· ≠ 0)

/-! ### `row` -/

/-- `pct`, a number of percent. -/
def pct (num den : ℕ) : Option ℚ := if den = 0 then none else some (100 * (num : ℚ) / den)

/-- `sorted(xs)[len(xs) // 2]` -/
def median (xs : List ℚ) : Option ℚ := (xs.mergeSort (· ≤ ·))[xs.length / 2]?

/-- The sum of some seconds, in minutes. -/
def minutes (xs : List ℚ) : Option ℚ := if xs = [] then none else some (xs.sum / 60)

/-- A row of the first table. -/
structure Row where
  answered : ℕ
  total : ℕ
  kept : Option ℚ
  dismissed : Option ℚ
  balanced : Option ℚ
  uncertain : Option ℚ
  unanswered : Option ℚ
  medianSeconds : Option ℚ
  totalMinutes : Option ℚ
  medianTokens : Option ℚ
  cost : Option ℚ

/-- `row` -/
def row (items : List (Item κ)) (res : Dict κ Record) : Row :=
  let tp := labelled "TP" items
  let fp := labelled "FP" items
  let verdict := ((items.map Item.id).eraseDups).map (verdictOf res)
  let kept := countVerdict res "TP" tp
  let dismissed := countVerdict res "FP" fp
  let tokens := (values res).filterMap Record.tokens
  let costs := (values res).filterMap Record.cost
  { answered := res.entries.length
    total := items.length
    kept := pct kept tp.length
    dismissed := pct dismissed fp.length
    balanced := if tp = [] ∨ fp = [] then none
      else some (50 * ((kept : ℚ) / tp.length + (dismissed : ℚ) / fp.length))
    uncertain := pct (verdict.countP fun v => v = some "UNCERTAIN".toList) items.length
    unanswered := pct (verdict.countP Option.isNone) items.length
    medianSeconds := median (latencies res)
    totalMinutes := minutes (latencies res)
    medianTokens := median tokens
    cost := if costs = [] then none else some costs.sum }

/-! ### `filter_row` -/

/-- A row of the tables of filters: the numbers behind the fractions, and what is sent to a human. -/
structure FilterRow where
  missed : ℕ
  tp : ℕ
  dismissed : ℕ
  fp : ℕ
  human : Option ℚ

/-- `filter_row`, but for the intervals. -/
def filterRow (items : List (Item κ)) (res : Dict κ Record) : FilterRow :=
  let answered := items.filter fun i => i.id ∈ res.keys
  let tp := labelled "TP" answered
  let fp := labelled "FP" answered
  let missed := countVerdict res "FP" tp
  let dismissed := countVerdict res "FP" fp
  { missed
    tp := tp.length
    dismissed
    fp := fp.length
    human := pct (answered.length - missed - dismissed) answered.length }

end

/-! ### `wilson` -/

section

variable (p n z : ℝ)

/-- `centre`, for the share `p` of `n`. -/
noncomputable def centre : ℝ := (p + z * z / (2 * n)) / (1 + z * z / n)

/-- `half` -/
noncomputable def half : ℝ := z * √(p * (1 - p) / n + z * z / (4 * n * n)) / (1 + z * z / n)

end

/-- The lower limit, before it is clamped. -/
noncomputable def lower (k n : ℕ) (z : ℝ) : ℝ := centre (k / n) n z - half (k / n) n z

/-- The upper limit, before it is clamped. -/
noncomputable def upper (k n : ℕ) (z : ℝ) : ℝ := centre (k / n) n z + half (k / n) n z

/-- `wilson`, in percent. -/
noncomputable def wilson (k n : ℕ) (z : ℝ) : Option (ℝ × ℝ) :=
  if n = 0 then none else some (100 * max 0 (lower k n z), 100 * min 1 (upper k n z))

/-- The interval, in percent, without the clamps. -/
noncomputable def interval (k n : ℕ) (z : ℝ) : Option (ℝ × ℝ) :=
  if n = 0 then none else some (100 * lower k n z, 100 * upper k n z)

/-- The intervals of `filter_row`. -/
noncomputable def filterIntervals {κ : Type} [DecidableEq κ] (items : List (Item κ)) (res : Dict κ Record) :
    Option (ℝ × ℝ) × Option (ℝ × ℝ) :=
  let r := filterRow items res
  (wilson r.missed r.tp 1.96, wilson r.dismissed r.fp 1.96)

section

variable {p q n z : ℝ}

/-- The equation of the score interval. -/
def ScoreEq (q n z p : ℝ) : Prop := n * (q - p) ^ 2 = z ^ 2 * p * (1 - p)

lemma denominator_pos (hn : 0 < n) (z : ℝ) : 0 < 1 + z * z / n := by
  have hsquare : 0 ≤ z * z / n := div_nonneg (mul_self_nonneg z) hn.le
  linarith

lemma half_sq (hn : 0 < n) (hq : 0 ≤ q ∧ q ≤ 1) :
    half q n z ^ 2 * (1 + z * z / n) ^ 2 = z ^ 2 * (q * (1 - q) / n + z * z / (4 * n * n)) := by
  have hroot : 0 ≤ q * (1 - q) / n + z * z / (4 * n * n) := by
    have hshare : 0 ≤ q * (1 - q) := mul_nonneg hq.1 (by linarith [hq.2])
    have hsquare : 0 ≤ z * z := mul_self_nonneg z
    positivity
  have hd := (denominator_pos hn z).ne'
  rw [half, div_pow, div_mul_cancel₀ _ (pow_ne_zero 2 hd), mul_pow, Real.sq_sqrt hroot]

/-- **The equation, with its square completed.** -/
lemma score_square (hn : 0 < n) (hq : 0 ≤ q ∧ q ≤ 1) (p : ℝ) :
    n * (q - p) ^ 2 - z ^ 2 * p * (1 - p) =
      n * (1 + z * z / n) * ((p - centre q n z) ^ 2 - half q n z ^ 2) := by
  have hd := (denominator_pos hn z).ne'
  have hcentre : centre q n z * (1 + z * z / n) = q + z * z / (2 * n) := div_mul_cancel₀ _ hd
  have hhalf := half_sq (z := z) hn hq
  refine mul_left_cancel₀ hd ?_
  calc (1 + z * z / n) * (n * (q - p) ^ 2 - z ^ 2 * p * (1 - p))
      = n * (p ^ 2 * (1 + z * z / n) ^ 2 - 2 * p * (1 + z * z / n) * (q + z * z / (2 * n)) +
          (q + z * z / (2 * n)) ^ 2 - z ^ 2 * (q * (1 - q) / n + z * z / (4 * n * n))) := by
        field_simp
        ring
    _ = (1 + z * z / n) * (n * (1 + z * z / n) * ((p - centre q n z) ^ 2 - half q n z ^ 2)) := by
        rw [← hcentre, ← hhalf]
        ring

lemma half_pos (hn : 0 < n) (hq : 0 ≤ q ∧ q ≤ 1) (hz : 0 < z) : 0 < half q n z := by
  have hshare : 0 ≤ q * (1 - q) := mul_nonneg hq.1 (by linarith [hq.2])
  have hroot : 0 < q * (1 - q) / n + z * z / (4 * n * n) := by positivity
  exact div_pos (mul_pos hz (Real.sqrt_pos.mpr hroot)) (denominator_pos hn z)

/-- **The limits are the roots.** -/
lemma score_iff (hn : 0 < n) (hq : 0 ≤ q ∧ q ≤ 1) (p : ℝ) :
    ScoreEq q n z p ↔ p = centre q n z - half q n z ∨ p = centre q n z + half q n z := by
  have hfactor : n * (1 + z * z / n) ≠ 0 := (mul_pos hn (denominator_pos hn z)).ne'
  rw [ScoreEq, ← sub_eq_zero, score_square hn hq p, mul_eq_zero, or_iff_right hfactor, sub_eq_zero,
    sq_eq_sq_iff_eq_or_eq_neg, sub_eq_iff_eq_add', sub_eq_iff_eq_add', or_comm, ← sub_eq_add_neg]

lemma ScoreEq.range (h : ScoreEq q n z p) (hn : 0 < n) (hz : 0 < z) : 0 ≤ p ∧ p ≤ 1 := by
  have hleft : 0 ≤ n * (q - p) ^ 2 := mul_nonneg hn.le (sq_nonneg _)
  rw [ScoreEq] at h
  rw [h, mul_assoc] at hleft
  have hproduct : 0 ≤ p * (1 - p) := nonneg_of_mul_nonneg_right hleft (pow_pos hz 2)
  constructor <;> nlinarith

/-- The share lies between the roots: there the left side is zero and the right one is not negative. -/
lemma share_between (hn : 0 < n) (hq : 0 ≤ q ∧ q ≤ 1) (hz : 0 < z) :
    centre q n z - half q n z ≤ q ∧ q ≤ centre q n z + half q n z := by
  have hsquare := score_square (z := z) hn hq q
  have hshare : 0 ≤ z ^ 2 * q * (1 - q) :=
    mul_nonneg (mul_nonneg (sq_nonneg z) hq.1) (by linarith [hq.2])
  have hle : (q - centre q n z) ^ 2 ≤ half q n z ^ 2 := by
    have hneg : n * (1 + z * z / n) * ((q - centre q n z) ^ 2 - half q n z ^ 2) ≤ 0 := by
      rw [← hsquare, sub_self]
      nlinarith
    have hpos := mul_pos hn (denominator_pos hn z)
    nlinarith
  obtain ⟨hlow, hhigh⟩ := abs_le.mp (abs_le_of_sq_le_sq hle (half_pos hn hq hz).le)
  constructor <;> linarith

lemma centre_mirror (hn : 0 < n) (q z : ℝ) : centre (1 - q) n z = 1 - centre q n z := by
  have hd := (denominator_pos hn z).ne'
  unfold centre
  rw [eq_sub_iff_add_eq, ← add_div, div_eq_one_iff_eq hd]
  field_simp
  ring

lemma half_mirror (q n z : ℝ) : half (1 - q) n z = half q n z := by
  unfold half
  rw [sub_sub_cancel, mul_comm (1 - q)]

end

/-! ### The published intervals -/

section

variable {k n : ℕ} {z : ℝ}

lemma share_range (hn : 1 ≤ n) (hk : k ≤ n) : 0 ≤ (k : ℝ) / n ∧ (k : ℝ) / n ≤ 1 :=
  ⟨by positivity, (div_le_one (by exact_mod_cast hn)).mpr (by exact_mod_cast hk)⟩

lemma limits_range (hn : 1 ≤ n) (hk : k ≤ n) (hz : 0 < z) : 0 ≤ lower k n z ∧ upper k n z ≤ 1 := by
  have hn' : (0 : ℝ) < n := by exact_mod_cast hn
  have hroots := score_iff (z := z) hn' (share_range hn hk)
  exact ⟨(((hroots _).mpr (Or.inl rfl)).range hn' hz).1, (((hroots _).mpr (Or.inr rfl)).range hn' hz).2⟩

/-- **The clamps change nothing.** -/
lemma wilson_eq (hk : k ≤ n) (hz : 0 < z) : wilson k n z = interval k n z := by
  unfold wilson interval
  split_ifs with hn
  · rfl
  · obtain ⟨hlow, hhigh⟩ := limits_range (Nat.one_le_iff_ne_zero.mpr hn) hk hz
    rw [max_eq_right hlow, min_eq_right hhigh]

lemma lower_mirror (hn : 1 ≤ n) (hk : k ≤ n) : lower k n z = 1 - upper (n - k) n z := by
  have hn' : (0 : ℝ) < n := by exact_mod_cast hn
  have hmirror : ((n - k : ℕ) : ℝ) / n = 1 - (k : ℝ) / n := by
    rw [Nat.cast_sub hk, sub_div, div_self hn'.ne']
  rw [lower, upper, hmirror, centre_mirror hn', half_mirror]
  ring

end

/-- **`filter_row` publishes score intervals**, over the reals and before formatting: no more findings have
the verdict than there are, and for such numbers the limits are the roots of the equation of the score
interval, so that clamping does not change them; they enclose the share, and are mirrored with it. -/
theorem wilson_is_score_interval :
    (∀ {κ : Type} [DecidableEq κ] (items : List (Item κ)) (res : Dict κ Record),
      let r := filterRow items res
      r.missed ≤ r.tp ∧ r.dismissed ≤ r.fp ∧
        filterIntervals items res = (interval r.missed r.tp 1.96, interval r.dismissed r.fp 1.96)) ∧
    ∀ (k n : ℕ) (z : ℝ), 1 ≤ n → k ≤ n → 0 < z →
      lower k n z < upper k n z ∧
        (∀ p : ℝ, n * ((k : ℝ) / n - p) ^ 2 = z ^ 2 * p * (1 - p) ↔ p = lower k n z ∨ p = upper k n z) ∧
        (0 ≤ lower k n z ∧ upper k n z ≤ 1) ∧ wilson k n z = interval k n z ∧
        (lower k n z ≤ (k : ℝ) / n ∧ (k : ℝ) / n ≤ upper k n z) ∧
        lower k n z = 1 - upper (n - k) n z := by
  constructor
  · intro κ _ items res
    have hmissed : (filterRow items res).missed ≤ (filterRow items res).tp := List.countP_le_length
    have hdismissed : (filterRow items res).dismissed ≤ (filterRow items res).fp := List.countP_le_length
    refine ⟨hmissed, hdismissed, ?_⟩
    exact Prod.ext (wilson_eq hmissed (by norm_num)) (wilson_eq hdismissed (by norm_num))
  · intro k n z hn hk hz
    have hn' : (0 : ℝ) < n := by exact_mod_cast hn
    have hshare := share_range hn hk
    refine ⟨?_, score_iff hn' hshare, limits_range hn hk hz, wilson_eq hk hz, share_between hn' hshare hz,
      lower_mirror hn hk⟩
    have hpos := half_pos hn' hshare hz
    unfold lower upper
    linarith

/-- The interval of 6 in 50, as the tests have it. -/
theorem wilson_is_score_interval_small :
    lower 6 50 1.96 < upper 6 50 1.96 ∧ wilson 6 50 1.96 = interval 6 50 1.96 ∧
      lower 6 50 1.96 = 1 - upper 44 50 1.96 := by
  obtain ⟨hlt, -, -, hclamps, -, hmirror⟩ :=
    wilson_is_score_interval.2 6 50 1.96 (by norm_num) (by norm_num) (by norm_num)
  exact ⟨hlt, hclamps, hmirror⟩

end CSecureBuild.Harness.Stats
