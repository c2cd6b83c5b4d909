import Mathlib

/-!
Computing with rounded numbers. Every result passes through a rounding that is off by at most some amount as
long as it is not too large (`Rounds`); the lemmas below say how far a sum, a difference, a product or a power
of such numbers can be off. `roundEven` is rounding to an integer, which small errors do not change away from
the middle between two integers (`roundEven_eq`), and `rounded` rounds to some bits after the leading one.
-/

namespace CSecureBuild.Lib.Rounding

/-! ### Errors of results -/

/-- Numbers of a magnitude of at most `A` are off by at most `δ` when they are rounded. -/
def Rounds (rnd : ℚ → ℚ) (A δ : ℚ) : Prop := ∀ x, |x| ≤ A → |rnd x - x| ≤ δ

lemma Rounds.mono {rnd : ℚ → ℚ} {A B δ ε : ℚ} (h : Rounds rnd A δ) (hA : B ≤ A) (hδ : δ ≤ ε) : Rounds rnd B ε :=
  fun x hx => (h x (hx.trans hA)).trans hδ

/-- A number is off by at most an error. -/
def Near (x q e : ℚ) : Prop := |x - q| ≤ e

variable {rnd : ℚ → ℚ} {A δ x y q r e f : ℚ}

lemma Near.mono (h : Near x q e) (hef : e ≤ f) : Near x q f := le_trans h hef

lemma near_self (x : ℚ) : Near x x 0 := by simp [Near]

lemma Near.abs_le (h : Near x q e) : |x| ≤ |q| + e := by
  have := abs_add_le (x - q) q
  rw [sub_add_cancel] at this
  have := h.trans (le_refl e)
  unfold Near at h
  linarith

lemma Near.round (hr : Rounds rnd A δ) (h : Near x q e) (hA : |q| + e ≤ A) : Near (rnd x) q (e + δ) := by
  have hround := hr x (h.abs_le.trans hA)
  have := abs_sub_le (rnd x) x q
  unfold Near at h ⊢
  linarith

lemma Near.add (hx : Near x q e) (hy : Near y r f) : Near (x + y) (q + r) (e + f) := by
  have hsplit : x + y - (q + r) = (x - q) + (y - r) := by ring
  unfold Near
  rw [hsplit]
  exact (abs_add_le _ _).trans (add_le_add hx hy)

lemma Near.sub (hx : Near x q e) (hy : Near y r f) : Near (x - y) (q - r) (e + f) := by
  have hsplit : x - y - (q - r) = (x - q) + -(y - r) := by ring
  unfold Near
  rw [hsplit]
  refine (abs_add_le _ _).trans (add_le_add hx ?_)
  rw [abs_neg]
  exact hy

lemma Near.mul {M N : ℚ} (hx : Near x q e) (hy : Near y r f) (hq : |q| ≤ M) (hr : |r| ≤ N) :
    Near (x * y) (q * r) (M * f + N * e + e * f) := by
  have hsplit : x * y - q * r = q * (y - r) + r * (x - q) + (x - q) * (y - r) := by ring
  have he : 0 ≤ e := (abs_nonneg _).trans hx
  have hM : 0 ≤ M := (abs_nonneg _).trans hq
  have hN : 0 ≤ N := (abs_nonneg _).trans hr
  unfold Near
  rw [hsplit]
  calc |q * (y - r) + r * (x - q) + (x - q) * (y - r)|
      ≤ |q * (y - r)| + |r * (x - q)| + |(x - q) * (y - r)| := abs_add_three _ _ _
    _ ≤ M * f + N * e + e * f := by
        rw [abs_mul, abs_mul, abs_mul]
        exact add_le_add (add_le_add (mul_le_mul hq hy (abs_nonneg _) hM)
          (mul_le_mul hr hx (abs_nonneg _) hN)) (mul_le_mul hx hy (abs_nonneg _) he)

lemma Near.pow (h : Near x q e) (hx : |x| ≤ 1) (hq : |q| ≤ 1) (n : ℕ) : Near (x ^ n) (q ^ n) (n * e) := by
  induction n with
  | zero => simp [Near]
  | succ n ih =>
    have hsplit : x ^ (n + 1) - q ^ (n + 1) = x * (x ^ n - q ^ n) + q ^ n * (x - q) := by ring
    have he : 0 ≤ e := (abs_nonneg _).trans h
    unfold Near at ih h ⊢
    rw [hsplit]
    have hfirst : |x * (x ^ n - q ^ n)| ≤ 1 * (n * e) := by
      rw [abs_mul]
      exact mul_le_mul hx ih (abs_nonneg _) zero_le_one
    have hsecond : |q ^ n * (x - q)| ≤ 1 * e := by
      rw [abs_mul]
      refine mul_le_mul ?_ h (abs_nonneg _) zero_le_one
      rw [abs_pow]
      exact pow_le_one₀ (abs_nonneg _) hq
    push_cast
    linarith [abs_add_le (x * (x ^ n - q ^ n)) (q ^ n * (x - q))]

lemma Near.min {z : ℚ} (hx : Near x q e) (hz : Near y z e) : Near (min x y) (min q z) e :=
  (abs_min_sub_min_le_max x y q z).trans (max_le hx hz)

/-! ### Rounding to an integer -/

/-- The nearest integer, and of two the even one. -/
def roundEven (x : ℚ) : ℤ :=
  if x - ⌊x⌋ < 1 / 2 then ⌊x⌋
  else if 1 / 2 < x - ⌊x⌋ then ⌊x⌋ + 1
  else if ⌊x⌋ % 2 = 0 then ⌊x⌋ else ⌊x⌋ + 1

/-- Whatever is nearer to an integer than a half is rounded to it. -/
lemma roundEven_eq {n : ℤ} (h : |x - n| < 1 / 2) : roundEven x = n := by
  obtain ⟨hlo, hhi⟩ := abs_lt.mp h
  unfold roundEven
  rcases le_or_gt (n : ℚ) x with hn | hn
  · have hfloor : ⌊x⌋ = n := Int.floor_eq_iff.mpr ⟨hn, by linarith⟩
    rw [hfloor, if_pos (by linarith)]
  · have hfloor : ⌊x⌋ = n - 1 := Int.floor_eq_iff.mpr ⟨by push_cast; linarith, by push_cast; linarith⟩
    rw [hfloor, if_neg (by push_cast; linarith), if_pos (by push_cast; linarith), sub_add_cancel]

lemma floor_le_roundEven (x : ℚ) : ⌊x⌋ ≤ roundEven x := by
  unfold roundEven
  split_ifs <;> omega

lemma roundEven_le (x : ℚ) : roundEven x ≤ ⌊x⌋ + 1 := by
  unfold roundEven
  split_ifs <;> omega

/-- **Rounding keeps the order.** -/
lemma roundEven_mono (h : x ≤ y) : roundEven x ≤ roundEven y := by
  rcases lt_or_eq_of_le (Int.floor_mono h) with hlt | heq
  · exact (roundEven_le x).trans ((Int.add_one_le_iff.mpr hlt).trans (floor_le_roundEven y))
  · unfold roundEven
    rw [← heq]
    split_ifs <;> first | omega | (exfalso; linarith)

/-! ### Numbers of a fixed precision -/

lemma roundEven_intCast (n : ℤ) : roundEven n = n := roundEven_eq (by norm_num)

lemma abs_roundEven_sub_le (x : ℚ) : |(roundEven x : ℚ) - x| ≤ 1 / 2 := by
  have hlo := Int.floor_le x
  have hhi := Int.lt_floor_add_one x
  unfold roundEven
  rw [abs_le]
  split_ifs <;> constructor <;> push_cast <;> linarith

/-- What a number with a leading bit and `p` further ones is a multiple of. -/
def unitOf (p : ℕ) (x : ℚ) : ℚ := 2 ^ (Int.log 2 |x| - p)

/-- The nearest number of `p + 1` bits, without a bound on the exponent. -/
def rounded (p : ℕ) (x : ℚ) : ℚ := roundEven (x / unitOf p x) * unitOf p x

variable {p k : ℕ}

lemma rounded_zero : rounded p 0 = 0 := by
  have := roundEven_intCast 0
  simp only [Int.cast_zero] at this
  unfold rounded
  rw [zero_div, this, Int.cast_zero, zero_mul]

lemma unitOf_pos : 0 < unitOf p x := by
  unfold unitOf
  positivity

lemma log_le (hx : x ≠ 0) (h : |x| ≤ 2 ^ k) : Int.log 2 |x| ≤ k := by
  have hmono := Int.log_mono_right (b := 2) (abs_pos.mpr hx) h
  have hpow : Int.log 2 ((2 : ℚ) ^ k) = k := by
    have := Int.log_zpow (R := ℚ) (b := 2) (by norm_num) k
    simpa using this
  rwa [hpow] at hmono

/-- **Rounding to some bits** is off by half a unit of the last one. -/
lemma rounds_rounded (p k : ℕ) : Rounds (rounded p) (2 ^ k) (2 ^ k / 2 ^ (p + 1)) := by
  intro x hx
  by_cases hzero : x = 0
  · rw [hzero, rounded_zero, sub_zero, abs_zero]
    positivity
  have hunit : unitOf p x ≤ 2 ^ k / 2 ^ p := by
    unfold unitOf
    rw [zpow_sub₀ (by norm_num), zpow_natCast]
    refine div_le_div_of_nonneg_right ?_ (by positivity)
    calc (2 : ℚ) ^ Int.log 2 |x| ≤ 2 ^ (k : ℤ) := zpow_le_zpow_right₀ (by norm_num) (log_le hzero hx)
      _ = 2 ^ k := zpow_natCast _ _
  have hsplit : rounded p x - x = (roundEven (x / unitOf p x) - x / unitOf p x) * unitOf p x := by
    have := (unitOf_pos (p := p) (x := x)).ne'
    unfold rounded
    field_simp
  rw [hsplit, abs_mul, abs_of_pos unitOf_pos]
  calc _ ≤ 1 / 2 * (2 ^ k / 2 ^ p) :=
        mul_le_mul (abs_roundEven_sub_le _) hunit unitOf_pos.le (by norm_num)
    _ = 2 ^ k / 2 ^ (p + 1) := by rw [pow_succ]; ring

lemma rounded_intCast {n : ℤ} (hn : |n| ≤ 2 ^ p) : rounded p n = n := by
  by_cases hzero : n = 0
  · rw [hzero, Int.cast_zero, rounded_zero]
  have hlog : Int.log 2 |(n : ℚ)| ≤ p := log_le (by exact_mod_cast hzero) (by exact_mod_cast hn)
  have hint : (n : ℚ) / unitOf p n = (n * 2 ^ (p - Int.log 2 |(n : ℚ)|).toNat : ℤ) := by
    have hexp : ((p - Int.log 2 |(n : ℚ)|).toNat : ℤ) = p - Int.log 2 |(n : ℚ)| := Int.toNat_of_nonneg (by omega)
    unfold unitOf
    push_cast
    rw [← zpow_natCast, hexp, div_eq_mul_inv, ← zpow_neg, neg_sub]
  unfold rounded
  rw [hint, roundEven_intCast, ← hint, div_mul_cancel₀ _ unitOf_pos.ne']

end CSecureBuild.Lib.Rounding
