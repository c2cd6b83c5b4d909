import CSecureBuild.Lib.Rounding
import CSecureBuild.Scripts.Cvss

/-!
The base score in numbers. `base_score` computes in floats, which round every result (`Floating`), and
`roundup` gets rid of the errors: its integer is the one that exact arithmetic gives, because no exact value
comes near to the middle between two integers (`far_from_half`). So a score is a number of tenths that the
vector alone decides, it grows with the severity of the metrics, and a run of the program prints what exact
arithmetic would.
-/

namespace CSecureBuild.Scripts.Score

open CSecureBuild.PyLib.Containers CSecureBuild.Lib.Rounding CSecureBuild.Scripts.Cvss

/-! ### Arithmetics -/

/-- Computing without rounding. -/
def exact : Arithmetic ℚ where
  lit := id
  add x y := x + y
  sub x y := x - y
  mul x y := x * y
  pow x n := x ^ n
  min x y := min x y
  nonpos x := decide (x ≤ 0)
  round := roundEven
  floor x := ⌊x⌋
  quotient a b := a / b

/-- What a number of double precision is off by when it is rounded, up to a magnitude of 32. -/
abbrev δ : ℚ := 1 / 2 ^ 48

/-- **Computing with floats**: every result is rounded, but for integers that are not too large; `min` and
comparisons are exact, and so are the integers that `round` and `math.floor` give. A power may be off by as
much as a rounded result. -/
structure Floating {R : Type} (F : Arithmetic R) (val : R → ℚ) (rnd : ℚ → ℚ) : Prop where
  near : Rounds rnd 32 δ
  far : Rounds rnd (2 ^ 20) (1 / 2 ^ 32)
  rnd_int : ∀ n : ℤ, |n| ≤ 2 ^ 20 → rnd n = n
  lit : ∀ q, val (F.lit q) = rnd q
  add : ∀ x y, val (F.add x y) = rnd (val x + val y)
  sub : ∀ x y, val (F.sub x y) = rnd (val x - val y)
  mul : ∀ x y, val (F.mul x y) = rnd (val x * val y)
  pow : ∀ x n, |val x| ≤ 1 → Near (val (F.pow x n)) (val x ^ n) δ
  min : ∀ x y, val (F.min x y) = Min.min (val x) (val y)
  nonpos : ∀ x, F.nonpos x = decide (val x ≤ 0)
  round : ∀ x, F.round x = roundEven (val x)
  floor : ∀ x, F.floor x = ⌊val x⌋
  quotient : ∀ a b : ℤ, b ≠ 0 → val (F.quotient a b) = rnd (a / b)

lemma rounds_id (A : ℚ) {e : ℚ} (he : 0 ≤ e) : Rounds id A e := fun x _ => by simpa using he

lemma floating_exact : Floating exact id id where
  near := rounds_id 32 (by norm_num)
  far := rounds_id _ (by norm_num)
  rnd_int _ _ := rfl
  lit _ := rfl
  add _ _ := rfl
  sub _ _ := rfl
  mul _ _ := rfl
  pow x n _ := (near_self _).mono (by norm_num)
  min _ _ := rfl
  nonpos _ := rfl
  round _ := rfl
  floor _ := rfl
  quotient _ _ _ := rfl

/-- Computing with 53 bits, as floats of double precision do as long as no result is too large or too
small. -/
def double : Arithmetic ℚ where
  lit := rounded 52
  add x y := rounded 52 (x + y)
  sub x y := rounded 52 (x - y)
  mul x y := rounded 52 (x * y)
  pow x n := rounded 52 (x ^ n)
  min x y := min x y
  nonpos x := decide (x ≤ 0)
  round := roundEven
  floor x := ⌊x⌋
  quotient a b := rounded 52 (a / b)

lemma floating_double : Floating double id (rounded 52) where
  near := (rounds_rounded 52 5).mono (by norm_num) (by norm_num)
  far := (rounds_rounded 52 20).mono le_rfl (by norm_num)
  rnd_int _ hn := rounded_intCast (hn.trans (by norm_num))
  lit _ := rfl
  add _ _ := rfl
  sub _ _ := rfl
  mul _ _ := rfl
  pow x n hx := by
    refine ((rounds_rounded 52 5) _ ?_).trans (by norm_num)
    rw [abs_pow]
    exact (pow_le_one₀ (abs_nonneg _) hx).trans (by norm_num)
  min _ _ := rfl
  nonpos _ := rfl
  round _ := rfl
  floor _ := rfl
  quotient _ _ _ := rfl

/-! ### Weights -/

/-- The weights of a vector. -/
structure Weighed where
  changed : Bool
  c : ℚ
  i : ℚ
  a : ℚ
  av : ℚ
  ac : ℚ
  pr : ℚ
  ui : ℚ

/-- The weights of the values of a metric. -/
def tableOf (name : List Char) : Weights := (WEIGHTS.lookup name).getD []

/-- The weight that a table gives to the value of a metric. -/
def look (m : Metrics) (name : List Char) (weights : Weights) : ℚ :=
  (((m.get name).bind fun value => weights.lookup value).join).getD 0

/-- The scope is changed. -/
def changed (m : Metrics) : Bool := m.get "S".toList = some ['C']

/-- The weights of a required privilege. -/
def privilegeTable (changed : Bool) : Weights := if changed then PR_SCOPE_CHANGED else tableOf "PR".toList

/-- What the metrics of a vector weigh. -/
def weigh (m : Metrics) : Weighed where
  changed := changed m
  c := look m "C".toList (tableOf "C".toList)
  i := look m "I".toList (tableOf "I".toList)
  a := look m "A".toList (tableOf "A".toList)
  av := look m "AV".toList (tableOf "AV".toList)
  ac := look m "AC".toList (tableOf "AC".toList)
  pr := look m "PR".toList (privilegeTable (changed m))
  ui := look m "UI".toList (tableOf "UI".toList)

section
variable {R : Type} (F : Arithmetic R)

/-- `iss`, from the weights of the three losses. -/
def issBy (c i a : ℚ) : R :=
  F.sub (F.lit 1) (F.mul (F.mul (F.sub (F.lit 1) (F.lit c)) (F.sub (F.lit 1) (F.lit i)))
    (F.sub (F.lit 1) (F.lit a)))

/-- `exploitability` -/
def exploitabilityBy (w : Weighed) : R :=
  F.mul (F.mul (F.mul (F.mul (F.lit 8.22) (F.lit w.av)) (F.lit w.ac)) (F.lit w.pr)) (F.lit w.ui)

/-- What `roundup` is called with. -/
def valueBy (w : Weighed) : R :=
  let sum := F.add (impactOf F w.changed (issBy F w.c w.i w.a)) (exploitabilityBy F w)
  F.min (if w.changed then F.mul (F.lit 1.08) sum else sum) (F.lit 10)

/-- The score of weights. -/
def scoreBy (w : Weighed) : R :=
  if F.nonpos (impactOf F w.changed (issBy F w.c w.i w.a)) then F.lit 0 else roundup F (valueBy F w)

variable {m : Metrics}

lemma getItem_eq_ok {β : Type} {entries : List (List Char × β)} {name : List Char} {b : β}
    (h : getItem entries name = .ok b) : entries.lookup name = some b := by
  unfold getItem at h
  split at h <;> simp_all

lemma weightIn_look {weights : Weights} (hw : Weighted weights) {name value : List Char}
    (hvalue : value ∈ weights.map Prod.fst) (hget : getItem m.entries name = .ok value) :
    weightIn F weights value = .ok (F.lit (look m name weights)) ∧
      look m name weights ∈ weights.filterMap Prod.snd := by
  obtain ⟨⟨_, q⟩, he, rfl⟩ := List.mem_map.mp hvalue
  obtain ⟨q, rfl⟩ := Option.isSome_iff_exists.mp (hw.2 _ he)
  have hitem := getItem_of_mem hw.1 he
  have hlook : look m name weights = q := by
    unfold look
    rw [← lookup_eq_get, getItem_eq_ok hget, Option.bind_some, getItem_eq_ok hitem]
    rfl
  refine ⟨?_, hlook ▸ List.mem_filterMap.mpr ⟨_, he, rfl⟩⟩
  unfold weightIn
  rw [hitem, hlook]
  rfl

lemma tableOf_eq {name : List Char} {weights : Weights} (hmem : (name, weights) ∈ WEIGHTS) :
    tableOf name = weights := by
  unfold tableOf
  rw [lookup_weights.mpr hmem]
  rfl

lemma mem_tables {name : List Char} (h : name ∈ names) : (name, tableOf name) ∈ WEIGHTS := by
  obtain ⟨⟨_, weights⟩, hmem, rfl⟩ := List.mem_map.mp h
  rw [tableOf_eq hmem]
  exact hmem

lemma weight_look (hperm : m.keys.Perm names) (hall : ∀ p ∈ m.entries, Allowed p) {name : List Char}
    (hname : name ∈ names) (hscope : name ≠ "S".toList) :
    weight F m name = .ok (F.lit (look m name (tableOf name))) ∧
      look m name (tableOf name) ∈ (tableOf name).filterMap Prod.snd := by
  obtain ⟨⟨_, weights⟩, hmem, rfl⟩ := List.mem_map.mp hname
  obtain ⟨value, hvalue, hget⟩ := exists_value hperm hall hmem
  rw [tableOf_eq hmem]
  obtain ⟨hweight, hlook⟩ := weightIn_look F (weighted_tables.2 _ hmem hscope) hvalue hget
  refine ⟨?_, hlook⟩
  unfold weight
  rw [getItem_of_mem names_nodup hmem, hget]
  exact hweight

lemma privileges_look (hperm : m.keys.Perm names) (hall : ∀ p ∈ m.entries, Allowed p) (changed : Bool) :
    privileges F m changed = .ok (F.lit (look m "PR".toList (privilegeTable changed))) ∧
      look m "PR".toList (privilegeTable changed) ∈ (privilegeTable changed).filterMap Prod.snd := by
  cases changed with
  | false => exact weight_look F hperm hall (by decide) (by decide)
  | true =>
    have hmem : ("PR".toList, [(['N'], some 0.85), (['L'], some 0.62), (['H'], some 0.27)]) ∈ WEIGHTS := by
      simp [WEIGHTS]
    obtain ⟨value, hvalue, hget⟩ := exists_value hperm hall hmem
    have hvalue' : value ∈ PR_SCOPE_CHANGED.map Prod.fst := hvalue
    obtain ⟨hweight, hlook⟩ := weightIn_look F weighted_tables.1 hvalue' hget
    refine ⟨?_, hlook⟩
    unfold privileges
    rw [if_pos rfl, hget]
    exact hweight

/-- **The score of a base vector** is that of its weights. -/
lemma scoreOf_eq (hperm : m.keys.Perm names) (hall : ∀ p ∈ m.entries, Allowed p) :
    scoreOf F m = .ok (scoreBy F (weigh m)) := by
  have hmem : ("S".toList, [(['U'], none), (['C'], none)]) ∈ WEIGHTS := by simp [WEIGHTS]
  obtain ⟨scope, -, hscope⟩ := exists_value hperm hall hmem
  have hchanged : decide (scope = ['C']) = changed m := by
    unfold changed
    rw [← lookup_eq_get, getItem_eq_ok hscope]
    simp
  have hbind : ∀ {β γ : Type} (b : β) (f : β → Except Raised γ), (Except.ok b >>= f) = f b :=
    fun _ _ => rfl
  unfold scoreOf
  simp only [hscope, hbind, hchanged, (privileges_look F hperm hall (changed m)).1,
    (weight_look F hperm hall (show "C".toList ∈ names by decide) (by decide)).1,
    (weight_look F hperm hall (show "I".toList ∈ names by decide) (by decide)).1,
    (weight_look F hperm hall (show "A".toList ∈ names by decide) (by decide)).1,
    (weight_look F hperm hall (show "AV".toList ∈ names by decide) (by decide)).1,
    (weight_look F hperm hall (show "AC".toList ∈ names by decide) (by decide)).1,
    (weight_look F hperm hall (show "UI".toList ∈ names by decide) (by decide)).1]
  simp only [scoreBy, valueBy, issBy, exploitabilityBy, weigh]
  exact (apply_ite Except.ok _ _ _).symm

end

/-! ### Errors -/

section Errors

variable {R : Type} {F : Arithmetic R} {val : R → ℚ} {rnd : ℚ → ℚ} {x y : R} {q r e f : ℚ}

namespace Floating

variable (hF : Floating F val rnd)
include hF

lemma near_lit (hq : |q| ≤ 32) : Near (val (F.lit q)) q δ := by
  rw [hF.lit]
  exact hF.near q hq

lemma near_add {M : ℚ} (hx : Near (val x) q e) (hy : Near (val y) r f) (hM : |q + r| ≤ M)
    (hA : M + (e + f) ≤ 32) : Near (val (F.add x y)) (q + r) (e + f + δ) := by
  rw [hF.add]
  exact (hx.add hy).round hF.near ((add_le_add_left hM _).trans hA)

lemma near_sub {M : ℚ} (hx : Near (val x) q e) (hy : Near (val y) r f) (hM : |q - r| ≤ M)
    (hA : M + (e + f) ≤ 32) : Near (val (F.sub x y)) (q - r) (e + f + δ) := by
  rw [hF.sub]
  exact (hx.sub hy).round hF.near ((add_le_add_left hM _).trans hA)

lemma near_mul {M N : ℚ} (hx : Near (val x) q e) (hy : Near (val y) r f) (hq : |q| ≤ M) (hr : |r| ≤ N)
    (hA : M * N + (M * f + N * e + e * f) ≤ 32) :
    Near (val (F.mul x y)) (q * r) (M * f + N * e + e * f + δ) := by
  rw [hF.mul]
  refine (hx.mul hy hq hr).round hF.near (le_trans ?_ hA)
  rw [abs_mul]
  exact add_le_add_left (mul_le_mul hq hr (abs_nonneg _) ((abs_nonneg _).trans hq)) _

end Floating

/-- A number from zero to one. -/
abbrev Unit (q : ℚ) : Prop := 0 ≤ q ∧ q ≤ 1

lemma Unit.abs_le_one (h : Unit q) : |q| ≤ 1 := abs_le.mpr ⟨by linarith [h.1], h.2⟩

lemma Unit.compl (h : Unit q) : Unit (1 - q) := ⟨by linarith [h.2], by linarith [h.1]⟩

lemma Unit.mul (hq : Unit q) (hr : Unit r) : Unit (q * r) :=
  ⟨mul_nonneg hq.1 hr.1, mul_le_one₀ hq.2 hr.1 hr.2⟩

variable {c i a : ℚ}

lemma unit_iss (hc : Unit c) (hi : Unit i) (ha : Unit a) : Unit (issBy exact c i a) :=
  ((hc.compl.mul hi.compl).mul ha.compl).compl

lemma near_iss (hF : Floating F val rnd) (hc : Unit c) (hi : Unit i) (ha : Unit a) :
    Near (val (issBy F c i a)) (issBy exact c i a) (15 * δ) := by
  have hone : Near (val (F.lit 1)) 1 δ := hF.near_lit (by norm_num)
  have hkept : ∀ q, Unit q → Near (val (F.sub (F.lit 1) (F.lit q))) (1 - q) (3 * δ) := fun q hq =>
    (hF.near_sub hone (hF.near_lit (hq.abs_le_one.trans (by norm_num))) hq.compl.abs_le_one
      (by norm_num)).mono (by norm_num)
  have hci : Near (val (F.mul (F.sub (F.lit 1) (F.lit c)) (F.sub (F.lit 1) (F.lit i))))
      ((1 - c) * (1 - i)) (8 * δ) :=
    (hF.near_mul (hkept c hc) (hkept i hi) hc.compl.abs_le_one hi.compl.abs_le_one (by norm_num)).mono
      (by norm_num)
  have hcia := (hF.near_mul hci (hkept a ha) (hc.compl.mul hi.compl).abs_le_one ha.compl.abs_le_one
    (by norm_num)).mono (show _ ≤ 13 * δ by norm_num)
  exact (hF.near_sub hone hcia (unit_iss hc hi ha).abs_le_one (by norm_num)).mono (by norm_num)

lemma abs_shift_le {iss : ℚ} (h : Unit iss) {d : ℚ} (hd : d ≤ 1 / 20) :
    |iss - d| ≤ 1 - d :=
  abs_le.mpr ⟨by linarith [h.1], by linarith [h.2]⟩

lemma abs_power_le {iss : ℚ} (h : Unit iss) : |(iss - 0.02) ^ 15| ≤ 1 := by
  rw [abs_pow]
  exact pow_le_one₀ (abs_nonneg _) ((abs_shift_le h (by norm_num)).trans (by norm_num))

lemma abs_impact_le (ch : Bool) {iss : ℚ} (h : Unit iss) : |impactOf exact ch iss| ≤ 11 := by
  cases ch with
  | false =>
    show |6.42 * iss| ≤ 11
    exact abs_le.mpr ⟨by linarith [h.1], by linarith [h.2]⟩
  | true =>
    obtain ⟨hlo, hhi⟩ := abs_le.mp (abs_power_le h)
    show |7.52 * (iss - 0.029) - 3.25 * (iss - 0.02) ^ 15| ≤ 11
    exact abs_le.mpr ⟨by linarith [h.1], by linarith [h.2]⟩

lemma near_impact (hF : Floating F val rnd) (ch : Bool) {iss : ℚ} (h : Unit iss)
    (hx : Near (val x) iss (15 * δ)) : Near (val (impactOf F ch x)) (impactOf exact ch iss) (1000 * δ) := by
  cases ch with
  | false =>
    show Near (val (F.mul (F.lit 6.42) x)) (6.42 * iss) _
    exact (hF.near_mul (M := 6.42) (N := 1) (hF.near_lit (by norm_num [abs_of_pos])) hx
      (by norm_num [abs_of_pos]) h.abs_le_one (by norm_num)).mono (by norm_num)
  | true =>
    have hshift : ∀ d : ℚ, 0 ≤ d → d ≤ 1 / 20 → Near (val (F.sub x (F.lit d))) (iss - d) (17 * δ) := by
      intro d hd hd'
      have hlit : Near (val (F.lit d)) d δ := hF.near_lit (abs_le.mpr ⟨by linarith, by linarith⟩)
      exact (hF.near_sub (M := 1) hx hlit ((abs_shift_le h hd').trans (by linarith))
        (by norm_num)).mono (by norm_num)
    have hlinear : Near (val (F.mul (F.lit 7.52) (F.sub x (F.lit 0.029)))) (7.52 * (iss - 0.029)) (140 * δ) :=
      (hF.near_mul (M := 7.52) (N := 1) (hF.near_lit (by norm_num [abs_of_pos]))
        (hshift 0.029 (by norm_num) (by norm_num)) (by norm_num [abs_of_pos])
        ((abs_shift_le h (by norm_num)).trans (by norm_num)) (by norm_num)).mono (by norm_num)
    have hlift := hshift 0.02 (by norm_num) (by norm_num)
    have hlift_le : |iss - 0.02| ≤ 0.98 :=
      (abs_shift_le h (by norm_num)).trans (by norm_num)
    have hval_le : |val (F.sub x (F.lit 0.02))| ≤ 1 :=
      hlift.abs_le.trans ((add_le_add_left hlift_le _).trans (by norm_num))
    have hpow : Near (val (F.pow (F.sub x (F.lit 0.02)) 15)) ((iss - 0.02) ^ 15) (260 * δ) := by
      have herr := hlift.pow hval_le (hlift_le.trans (by norm_num)) 15
      have := abs_sub_le (val (F.pow (F.sub x (F.lit 0.02)) 15)) (val (F.sub x (F.lit 0.02)) ^ 15)
        ((iss - 0.02) ^ 15)
      exact this.trans ((add_le_add (hF.pow _ 15 hval_le) herr).trans (by norm_num))
    have hcurve : Near (val (F.mul (F.lit 3.25) (F.pow (F.sub x (F.lit 0.02)) 15)))
        (3.25 * (iss - 0.02) ^ 15) (850 * δ) :=
      (hF.near_mul (M := 3.25) (N := 1) (hF.near_lit (by norm_num [abs_of_pos])) hpow
        (by norm_num [abs_of_pos]) (abs_power_le h) (by norm_num)).mono (by norm_num)
    exact (hF.near_sub hlinear hcurve (abs_impact_le true h) (by norm_num)).mono (by norm_num)

/-- The weights are numbers from zero to one. -/
structure Weighed.InRange (w : Weighed) : Prop where
  c : Unit w.c
  i : Unit w.i
  a : Unit w.a
  av : Unit w.av
  ac : Unit w.ac
  pr : Unit w.pr
  ui : Unit w.ui

variable {w : Weighed}

lemma exploitability_bounds (hw : w.InRange) :
    0 ≤ exploitabilityBy exact w ∧ exploitabilityBy exact w ≤ 8.22 := by
  have hunit := ((hw.av.mul hw.ac).mul hw.pr).mul hw.ui
  have heq : exploitabilityBy exact w = 8.22 * (w.av * w.ac * w.pr * w.ui) := by
    show 8.22 * w.av * w.ac * w.pr * w.ui = _
    ring
  rw [heq]
  exact ⟨by linarith [hunit.1], by linarith [hunit.2]⟩

lemma near_exploitability (hF : Floating F val rnd) (hw : w.InRange) :
    Near (val (exploitabilityBy F w)) (exploitabilityBy exact w) (50 * δ) := by
  have hlit : ∀ q, Unit q → Near (val (F.lit q)) q δ := fun q hq =>
    hF.near_lit (hq.abs_le_one.trans (by norm_num))
  -- each factor is at most one, so the bound stays that of the first one
  have hbound : ∀ q, Unit q → |8.22 * q| ≤ 8.22 := fun q hq =>
    abs_le.mpr ⟨by linarith [hq.1], by linarith [hq.2]⟩
  have h1 := (hF.near_mul (M := 8.22) (N := 1) (hF.near_lit (q := 8.22) (by norm_num [abs_of_pos]))
    (hlit _ hw.av) (by norm_num [abs_of_pos]) hw.av.abs_le_one (by norm_num)).mono
    (show _ ≤ 11 * δ by norm_num)
  have h2 := (hF.near_mul (M := 8.22) (N := 1) h1 (hlit _ hw.ac) (hbound _ hw.av) hw.ac.abs_le_one
    (by norm_num)).mono (show _ ≤ 22 * δ by norm_num)
  have h3 := (hF.near_mul (M := 8.22) (N := 1) h2 (hlit _ hw.pr)
    (by rw [mul_assoc]; exact hbound _ (hw.av.mul hw.ac)) hw.pr.abs_le_one (by norm_num)).mono
    (show _ ≤ 33 * δ by norm_num)
  exact (hF.near_mul (M := 8.22) (N := 1) h3 (hlit _ hw.ui)
    (by rw [mul_assoc, mul_assoc, ← mul_assoc w.av]; exact hbound _ ((hw.av.mul hw.ac).mul hw.pr))
    hw.ui.abs_le_one (by norm_num)).mono (by norm_num)

/-- **What `roundup` is called with is nearly exact.** -/
lemma near_value (hF : Floating F val rnd) (hw : w.InRange) :
    Near (val (valueBy F w)) (valueBy exact w) (1200 * δ) := by
  have hiss := unit_iss hw.c hw.i hw.a
  have himpact := abs_le.mp (abs_impact_le w.changed hiss)
  have hexploit := exploitability_bounds hw
  have hsum_le : |impactOf exact w.changed (issBy exact w.c w.i w.a) + exploitabilityBy exact w| ≤ 19.22 :=
    abs_le.mpr ⟨by linarith [himpact.1, hexploit.1], by linarith [himpact.2, hexploit.2]⟩
  have hsum := (hF.near_add (near_impact hF w.changed hiss (near_iss hF hw.c hw.i hw.a))
    (near_exploitability hF hw) hsum_le (by norm_num)).mono (show _ ≤ 1060 * δ by norm_num)
  have hten : Near (val (F.lit 10)) 10 (1200 * δ) :=
    (hF.near_lit (by norm_num [abs_of_pos])).mono (by norm_num)
  have hscope : ∀ {x : R} {q : ℚ}, Near (val x) q (1060 * δ) → |q| ≤ 19.22 →
      Near (val (if w.changed then F.mul (F.lit 1.08) x else x)) (if w.changed then 1.08 * q else q)
        (1200 * δ) := by
    intro x q hx hq
    cases w.changed with
    | false => exact hx.mono (by norm_num)
    | true =>
      exact (hF.near_mul (M := 1.08) (N := 19.22) (hF.near_lit (by norm_num [abs_of_pos])) hx
        (by norm_num [abs_of_pos]) hq (by norm_num)).mono (by norm_num)
  unfold valueBy
  rw [hF.min]
  exact Near.min (hscope hsum hsum_le) hten

/-! ### `roundup` -/

/-- The tenths that a number of hundred thousandths is rounded up to. -/
def tenths (n : ℤ) : ℤ := (n + 9999) / 10000

lemma near_scaled (hF : Floating F val rnd) (hx : Near (val x) q (1200 * δ)) (hq : 0 ≤ q) (hq' : q ≤ 10) :
    Near (val (F.mul x (F.lit 100000))) (q * 100000) (1 / 10000) := by
  have hlit : Near (val (F.lit 100000)) 100000 (1 / 2 ^ 32) := by
    rw [hF.lit]
    exact hF.far _ (by norm_num [abs_of_pos])
  have hprod := hx.mul (M := 10) (N := 100000) hlit (abs_le.mpr ⟨by linarith, hq'⟩) (by norm_num [abs_of_pos])
  rw [hF.mul]
  refine (hprod.round hF.far ?_).mono (by norm_num)
  rw [abs_of_nonneg (by linarith)]
  refine le_trans (add_le_add_left (show q * 100000 ≤ 1000000 by linarith) _) (by norm_num)

/-- **`roundup` of a float** whose exact value is not near to the middle between two hundred thousandths. -/
lemma roundup_val (hF : Floating F val rnd) (hx : Near (val x) q (1200 * δ)) (hq : 0 ≤ q) (hq' : q ≤ 10)
    {n : ℤ} (hn : |q * 100000 - n| ≤ 1 / 2 - 1 / 4000) :
    val (roundup F x) = rnd ((tenths n : ℚ) / 10) := by
  -- the product is so near to an integer that it is rounded to it
  have hround : F.round (F.mul x (F.lit 100000)) = n := by
    rw [hF.round]
    refine roundEven_eq ?_
    have := abs_sub_le (val (F.mul x (F.lit 100000))) (q * 100000) n
    have hscaled := near_scaled hF hx hq hq'
    unfold Near at hscaled
    linarith
  have hbounds : 0 ≤ n ∧ n ≤ 1000000 := by
    obtain ⟨hlo, hhi⟩ := abs_le.mp hn
    have h1 : (-1 : ℚ) < n := by linarith
    have h2 : (n : ℚ) < 1000001 := by linarith
    have h1' : -1 < n := by exact_mod_cast h1
    have h2' : n < 1000001 := by exact_mod_cast h2
    omega
  unfold roundup
  simp only [hround]
  split_ifs with hdvd
  · -- a whole number of tenths stays
    have htenths : n = 10000 * tenths n := by unfold tenths; omega
    rw [hF.quotient _ _ (by norm_num)]
    congr 1
    have hcast : (n : ℚ) = 10000 * tenths n := by exact_mod_cast htenths
    rw [hcast]
    push_cast
    ring
  · -- any other one goes up to the next
    have htenths : tenths n = n / 10000 + 1 := by unfold tenths; omega
    have hfloor : F.floor (F.quotient n 10000) = n / 10000 := by
      rw [hF.floor, hF.quotient _ _ (by norm_num)]
      have hsplit : (n : ℚ) = 10000 * (n / 10000 : ℤ) + (n % 10000 : ℤ) := by
        exact_mod_cast (Int.mul_ediv_add_emod n 10000).symm
      have hrem : (1 : ℚ) ≤ (n % 10000 : ℤ) ∧ ((n % 10000 : ℤ) : ℚ) ≤ 9999 := by
        constructor <;> norm_cast <;> omega
      have hsmall : |(n : ℚ) / (10000 : ℤ)| ≤ 2 ^ 20 := by
        have h0 : (0 : ℚ) ≤ n := by exact_mod_cast hbounds.1
        have h1 : (n : ℚ) ≤ 1000000 := by exact_mod_cast hbounds.2
        rw [abs_of_nonneg (by positivity), div_le_iff₀ (by norm_num)]
        push_cast
        linarith
      obtain ⟨hlo, hhi⟩ := abs_le.mp (hF.far _ hsmall)
      have hquot : (n : ℚ) / (10000 : ℤ) = (n / 10000 : ℤ) + (n % 10000 : ℤ) / 10000 := by
        rw [hsplit]
        push_cast
        ring
      rw [hquot] at hlo hhi ⊢
      refine Int.floor_eq_iff.mpr ⟨?_, ?_⟩ <;> linarith
    rw [hfloor, hF.quotient _ _ (by norm_num), htenths]
    congr 1

end Errors

/-! ### The exact values -/

/-- The weights of a loss, in hundredths. -/
def losses : List ℤ := [56, 22, 0]

/-- The values of `exploitability`, in units of `1e-10`. -/
def exploitabilities (changed : Bool) : List ℤ :=
  [85, 62, 55, 20].flatMap fun av => [77, 44].flatMap fun ac =>
    (if changed then [85, 68, 50] else [85, 62, 27]).flatMap fun pr =>
      [85, 62].map fun ui => 822 * av * ac * pr * ui

/-- `impact`, in units of `1e-92`, from the weights of the losses in hundredths. -/
def impactUnits (changed : Bool) (c i a : ℤ) : ℤ :=
  let iss := 10 ^ 6 - (100 - c) * (100 - i) * (100 - a)
  if changed then 752 * (iss - 29000) * 10 ^ 84 - 325 * (iss - 20000) ^ 15 else 642 * iss * 10 ^ 84

/-- What `roundup` is called with, in units of `1e-94`. -/
def valueUnits (changed : Bool) (c i a e : ℤ) : ℤ :=
  min ((if changed then 108 else 100) * (impactUnits changed c i a + e * 10 ^ 82)) (10 * 10 ^ 94)

/-- The nearest hundred thousandth. -/
def nearest (units : ℤ) : ℤ := (2 * (units * 100000) + 10 ^ 94) / (2 * 10 ^ 94)

/-- **No value comes near to the middle between two hundred thousandths**, where there is a loss. -/
lemma far_from_half : ∀ ch ∈ [false, true], ∀ c ∈ losses, ∀ i ∈ losses, ∀ a ∈ losses, (c, i, a) ≠ (0, 0, 0) →
    10 ^ 92 ≤ impactUnits ch c i a ∧ ∀ e ∈ exploitabilities ch, 0 ≤ e ∧
      4000 * |valueUnits ch c i a e * 100000 - nearest (valueUnits ch c i a e) * 10 ^ 94| ≤
        1999 * 10 ^ 94 := by
  decide +kernel

/-- **A greater loss has a greater impact**, and so has a changed scope. -/
lemma impactUnits_mono : ∀ ch ∈ [false, true], ∀ c ∈ losses, ∀ i ∈ losses, ∀ a ∈ losses,
    ∀ ch' ∈ [false, true], ∀ c' ∈ losses, ∀ i' ∈ losses, ∀ a' ∈ losses,
      ch ≤ ch' → c ≤ c' → i ≤ i' → a ≤ a' → 0 < impactUnits ch c i a →
        impactUnits ch c i a ≤ impactUnits ch' c' i' a' := by
  decide +kernel

lemma iss_eq (c i a : ℤ) : issBy exact (c / 100) (i / 100) (a / 100) =
    ((10 ^ 6 - (100 - c) * (100 - i) * (100 - a) : ℤ) : ℚ) / 10 ^ 6 := by
  show 1 - (1 - (c : ℚ) / 100) * (1 - i / 100) * (1 - a / 100) = _
  push_cast
  ring

lemma impact_eq (ch : Bool) (c i a : ℤ) :
    impactOf exact ch (issBy exact (c / 100) (i / 100) (a / 100)) = impactUnits ch c i a / 10 ^ 92 := by
  rw [iss_eq]
  unfold impactUnits
  generalize 10 ^ 6 - (100 - c) * (100 - i) * (100 - a) = iss
  cases ch with
  | false =>
    show 6.42 * ((iss : ℚ) / 10 ^ 6) = _
    simp only [Bool.false_eq_true, if_false]
    push_cast
    ring
  | true =>
    show 7.52 * ((iss : ℚ) / 10 ^ 6 - 0.029) - 3.25 * ((iss : ℚ) / 10 ^ 6 - 0.02) ^ 15 = _
    have hlift : (iss : ℚ) / 10 ^ 6 - 0.02 = (iss - 20000 : ℤ) / 10 ^ 6 := by
      push_cast
      ring
    rw [hlift, div_pow]
    simp only [if_true]
    generalize iss - 20000 = lift
    push_cast
    ring

/-- Weights as the tables have them. -/
structure Weighed.Listed (w : Weighed) (c i a e : ℤ) : Prop where
  losses : c ∈ losses ∧ i ∈ losses ∧ a ∈ losses
  c : w.c = c / 100
  i : w.i = i / 100
  a : w.a = a / 100
  mem : e ∈ exploitabilities w.changed
  exploitability : exploitabilityBy exact w = e / 10 ^ 10
  range : w.InRange

section Values

variable {w : Weighed} {c i a e : ℤ}

lemma Weighed.Listed.impact_eq (h : w.Listed c i a e) :
    impactOf exact w.changed (issBy exact w.c w.i w.a) = impactUnits w.changed c i a / 10 ^ 92 := by
  rw [h.c, h.i, h.a, Score.impact_eq]

lemma Weighed.Listed.value_eq (h : w.Listed c i a e) :
    valueBy exact w = valueUnits w.changed c i a e / 10 ^ 94 := by
  have hsum : (if w.changed then
        exact.mul (exact.lit 1.08) (exact.add (impactUnits w.changed c i a / 10 ^ 92) (e / 10 ^ 10))
      else exact.add (impactUnits w.changed c i a / 10 ^ 92) (e / 10 ^ 10) : ℚ) =
      (((if w.changed then 108 else 100) * (impactUnits w.changed c i a + e * 10 ^ 82) : ℤ) : ℚ) /
        10 ^ 94 := by
    cases w.changed with
    | false =>
      show (impactUnits false c i a : ℚ) / 10 ^ 92 + e / 10 ^ 10 = _
      simp only [Bool.false_eq_true, if_false]
      push_cast
      ring
    | true =>
      show 1.08 * ((impactUnits true c i a : ℚ) / 10 ^ 92 + e / 10 ^ 10) = _
      simp only [if_true]
      push_cast
      ring
  unfold valueBy valueUnits
  rw [h.impact_eq, h.exploitability]
  show min (if w.changed then exact.mul (exact.lit 1.08) _ else _) (10 : ℚ) = _
  rw [hsum, Int.cast_min, ← min_div_div_right (by positivity)]
  norm_num

/-- The score of weights, in tenths. -/
def tenthsOf (w : Weighed) : ℤ :=
  if impactOf exact w.changed (issBy exact w.c w.i w.a) ≤ 0 then 0
  else tenths (roundEven (valueBy exact w * 100000))

lemma mem_scopes (ch : Bool) : ch ∈ [false, true] := by cases ch <;> simp

lemma Weighed.Listed.impact_zero (h : w.Listed c i a e) (hzero : (c, i, a) = (0, 0, 0)) :
    impactOf exact w.changed (issBy exact w.c w.i w.a) ≤ 0 := by
  simp only [Prod.mk.injEq] at hzero
  obtain ⟨rfl, rfl, rfl⟩ := hzero
  have hunits : ∀ ch ∈ [false, true], impactUnits ch 0 0 0 ≤ 0 := by decide
  have hle : (impactUnits w.changed 0 0 0 : ℚ) ≤ 0 := by exact_mod_cast hunits _ (mem_scopes w.changed)
  rw [h.impact_eq]
  exact div_nonpos_of_nonpos_of_nonneg hle (by positivity)

/-- Where there is a loss, the impact is at least one, and the value is not near to a middle. -/
lemma Weighed.Listed.impact_pos (h : w.Listed c i a e) (hloss : (c, i, a) ≠ (0, 0, 0)) :
    1 ≤ impactOf exact w.changed (issBy exact w.c w.i w.a) ∧ 1 ≤ valueBy exact w ∧ valueBy exact w ≤ 10 ∧
      |valueBy exact w * 100000 - roundEven (valueBy exact w * 100000)| ≤ 1 / 2 - 1 / 4000 := by
  obtain ⟨hc, hi, ha⟩ := h.losses
  obtain ⟨himpact, hfar⟩ := far_from_half _ (mem_scopes w.changed) c hc i hi a ha hloss
  obtain ⟨hexploit, hfar⟩ := hfar e h.mem
  have hone : (1 : ℚ) ≤ impactUnits w.changed c i a / 10 ^ 92 := by
    rw [le_div_iff₀ (by positivity), one_mul]
    exact_mod_cast himpact
  have hunits : 10 ^ 94 ≤ valueUnits w.changed c i a e ∧ valueUnits w.changed c i a e ≤ 10 * 10 ^ 94 := by
    unfold valueUnits
    refine ⟨le_min ?_ (by norm_num), min_le_right _ _⟩
    split_ifs <;> nlinarith
  have hfar' : |valueBy exact w * 100000 - nearest (valueUnits w.changed c i a e)| ≤ 1 / 2 - 1 / 4000 := by
    have hcast : (4000 : ℚ) * |(valueUnits w.changed c i a e : ℚ) * 100000 -
        nearest (valueUnits w.changed c i a e) * 10 ^ 94| ≤ 1999 * 10 ^ 94 := by exact_mod_cast hfar
    have hscale : (valueUnits w.changed c i a e : ℚ) / 10 ^ 94 * 100000 - nearest (valueUnits w.changed c i a e) =
        ((valueUnits w.changed c i a e : ℚ) * 100000 -
          nearest (valueUnits w.changed c i a e) * 10 ^ 94) / 10 ^ 94 := by
      field_simp
    rw [h.value_eq, hscale, abs_div, abs_of_pos (show (0 : ℚ) < 10 ^ 94 by positivity),
      div_le_iff₀ (by positivity)]
    calc _ = 4000 * |(valueUnits w.changed c i a e : ℚ) * 100000 -
          nearest (valueUnits w.changed c i a e) * 10 ^ 94| / 4000 := by ring
      _ ≤ 1999 * 10 ^ 94 / 4000 := div_le_div_of_nonneg_right hcast (by norm_num)
      _ = (1 / 2 - 1 / 4000) * 10 ^ 94 := by norm_num
  rw [h.impact_eq, roundEven_eq (lt_of_le_of_lt hfar' (by norm_num))]
  refine ⟨hone, ?_, ?_, hfar'⟩
  · rw [h.value_eq, le_div_iff₀ (by positivity), one_mul]
    exact_mod_cast hunits.1
  · rw [h.value_eq, div_le_iff₀ (by positivity)]
    exact_mod_cast hunits.2

/-- A score is from nought to ten, and nought where there is no loss only. -/
lemma Weighed.Listed.tenthsOf_bounds (h : w.Listed c i a e) :
    0 ≤ tenthsOf w ∧ tenthsOf w ≤ 100 ∧ (tenthsOf w = 0 ↔ (c, i, a) = (0, 0, 0)) := by
  unfold tenthsOf
  by_cases hloss : (c, i, a) = (0, 0, 0)
  · rw [if_pos (h.impact_zero hloss)]
    exact ⟨le_rfl, by norm_num, by simp [hloss]⟩
  · obtain ⟨himpact, hlo, hhi, hfar⟩ := h.impact_pos hloss
    rw [if_neg (by linarith)]
    obtain ⟨hleft, hright⟩ := abs_le.mp hfar
    have h1 : (99999 : ℚ) < roundEven (valueBy exact w * 100000) := by linarith
    have h2 : (roundEven (valueBy exact w * 100000) : ℚ) < 1000001 := by linarith
    have h1' : 99999 < roundEven (valueBy exact w * 100000) := by exact_mod_cast h1
    have h2' : roundEven (valueBy exact w * 100000) < 1000001 := by exact_mod_cast h2
    unfold tenths
    exact ⟨by omega, by omega, iff_of_false (by omega) hloss⟩

variable {R : Type} {F : Arithmetic R} {val : R → ℚ} {rnd : ℚ → ℚ}

lemma val_iss_zero (hF : Floating F val rnd) : val (issBy F 0 0 0) = 0 := by
  have hzero : rnd 0 = 0 := by simpa using hF.rnd_int 0 (by norm_num)
  have hone : rnd 1 = 1 := by simpa using hF.rnd_int 1 (by norm_num)
  unfold issBy
  simp only [hF.sub, hF.mul, hF.lit, hzero, hone, sub_zero, mul_one, sub_self]

lemma nonpos_val (hF : Floating F val rnd) (h : w.Listed c i a e) :
    F.nonpos (impactOf F w.changed (issBy F w.c w.i w.a)) =
      decide (impactOf exact w.changed (issBy exact w.c w.i w.a) ≤ 0) := by
  have hnear : Near (val (impactOf F w.changed (issBy F w.c w.i w.a)))
      (impactOf exact w.changed (issBy exact w.c w.i w.a)) (1 / 10) :=
    (near_impact hF w.changed (unit_iss h.range.c h.range.i h.range.a)
      (near_iss hF h.range.c h.range.i h.range.a)).mono (by norm_num)
  obtain ⟨hlo, hhi⟩ := abs_le.mp hnear
  rw [hF.nonpos, decide_eq_decide]
  by_cases hloss : (c, i, a) = (0, 0, 0)
  · refine iff_of_true ?_ (h.impact_zero hloss)
    simp only [Prod.mk.injEq] at hloss
    obtain ⟨rfl, rfl, rfl⟩ := hloss
    cases hch : w.changed with
    | false =>
      have hzero : rnd 0 = 0 := by simpa using hF.rnd_int 0 (by norm_num)
      show val (F.mul (F.lit 6.42) (issBy F w.c w.i w.a)) ≤ 0
      rw [h.c, h.i, h.a]
      simp only [Int.cast_zero, zero_div]
      rw [hF.mul, val_iss_zero hF, mul_zero, hzero]
    | true =>
      -- the exact impact is about -0.2
      have hunits : impactUnits true 0 0 0 ≤ -(10 ^ 91) := by decide
      have hexact : impactOf exact w.changed (issBy exact w.c w.i w.a) ≤ -(1 / 10) := by
        rw [h.impact_eq, hch, div_le_iff₀ (by positivity)]
        have hcast : (impactUnits true 0 0 0 : ℚ) ≤ -(10 ^ 91) := by exact_mod_cast hunits
        exact hcast.trans (by norm_num)
      rw [← hch]
      linarith
  · have := (h.impact_pos hloss).1
    exact iff_of_false (by linarith) (by linarith)

/-- **The score of weights** is the same in floats. -/
lemma scoreBy_val (hF : Floating F val rnd) (h : w.Listed c i a e) :
    val (scoreBy F w) = rnd ((tenthsOf w : ℚ) / 10) := by
  unfold scoreBy tenthsOf
  rw [nonpos_val hF h]
  by_cases himpact : impactOf exact w.changed (issBy exact w.c w.i w.a) ≤ 0
  · rw [if_pos himpact, if_pos (decide_eq_true himpact), hF.lit]
    simp
  · have hloss : (c, i, a) ≠ (0, 0, 0) := fun hzero => himpact (h.impact_zero hzero)
    obtain ⟨-, hlo, hhi, hfar⟩ := h.impact_pos hloss
    rw [if_neg himpact, if_neg (by simpa using himpact)]
    exact roundup_val hF (near_value hF h.range) (by linarith) hhi hfar

end Values

/-! ### The weights of a base vector -/

section Vectors

variable {m m' : Metrics}

/-- The metrics whose weights do not depend on the scope, with these in hundredths. -/
def hundredths : List (List Char × List ℤ) :=
  [("C".toList, losses), ("I".toList, losses), ("A".toList, losses), ("AV".toList, [85, 62, 55, 20]),
    ("AC".toList, [77, 44]), ("UI".toList, [85, 62])]

lemma hundredths_tables : ∀ t ∈ hundredths, t.1 ∈ names ∧ t.1 ≠ "S".toList ∧
    ∀ q ∈ (tableOf t.1).filterMap Prod.snd, ∃ n ∈ t.2, q = (n : ℚ) / 100 ∧ 0 ≤ q ∧ q ≤ 1 := by
  decide +kernel

lemma hundredths_privileges : ∀ ch ∈ [false, true], ∀ q ∈ (privilegeTable ch).filterMap Prod.snd,
    ∃ n ∈ (if ch then [85, 68, 50] else [85, 62, 27] : List ℤ), q = (n : ℚ) / 100 ∧ 0 ≤ q ∧ q ≤ 1 := by
  decide +kernel

lemma look_hundredths (hperm : m.keys.Perm names) (hall : ∀ p ∈ m.entries, Allowed p) {name : List Char}
    {list : List ℤ} (ht : (name, list) ∈ hundredths) :
    ∃ n ∈ list, look m name (tableOf name) = n / 100 ∧ Unit (look m name (tableOf name)) := by
  obtain ⟨hname, hscope, hq⟩ := hundredths_tables _ ht
  exact hq _ (weight_look exact hperm hall hname hscope).2

/-- **The weights of a base vector** are those of the tables. -/
lemma weigh_listed (hperm : m.keys.Perm names) (hall : ∀ p ∈ m.entries, Allowed p) :
    ∃ c i a e, (weigh m).Listed c i a e := by
  obtain ⟨c, hc, hc', huc⟩ :=
    look_hundredths hperm hall (show ("C".toList, losses) ∈ hundredths by simp [hundredths])
  obtain ⟨i, hi, hi', hui⟩ :=
    look_hundredths hperm hall (show ("I".toList, losses) ∈ hundredths by simp [hundredths])
  obtain ⟨a, ha, ha', hua⟩ :=
    look_hundredths hperm hall (show ("A".toList, losses) ∈ hundredths by simp [hundredths])
  obtain ⟨av, hav, hav', huav⟩ :=
    look_hundredths hperm hall (show ("AV".toList, [85, 62, 55, 20]) ∈ hundredths by simp [hundredths])
  obtain ⟨ac, hac, hac', huac⟩ :=
    look_hundredths hperm hall (show ("AC".toList, [77, 44]) ∈ hundredths by simp [hundredths])
  obtain ⟨ui, hui2, hui', huui⟩ :=
    look_hundredths hperm hall (show ("UI".toList, [85, 62]) ∈ hundredths by simp [hundredths])
  obtain ⟨pr, hpr, hpr', hupr⟩ := hundredths_privileges _ (mem_scopes (changed m)) _
    (privileges_look exact hperm hall (changed m)).2
  refine ⟨c, i, a, 822 * av * ac * pr * ui, ⟨hc, hi, ha⟩, hc', hi', ha', ?_, ?_, huc, hui, hua, huav, huac,
    hupr, huui⟩
  · unfold exploitabilities
    refine List.mem_flatMap.mpr ⟨av, hav, List.mem_flatMap.mpr ⟨ac, hac, ?_⟩⟩
    exact List.mem_flatMap.mpr ⟨pr, hpr, List.mem_map.mpr ⟨ui, hui2, rfl⟩⟩
  · show 8.22 * look m _ _ * look m _ _ * look m _ _ * look m _ _ = _
    rw [hav', hac', hpr', hui']
    push_cast
    ring

/-- There is no loss of confidentiality, integrity or availability. -/
def NoLoss (m : Metrics) : Prop := ∀ name ∈ ["C".toList, "I".toList, "A".toList], m.get name = some ['N']

lemma loss_zero : ∀ name ∈ ["C".toList, "I".toList, "A".toList], ∀ value ∈ (tableOf name).map Prod.fst,
    (((tableOf name).lookup value).join.getD 0 = 0 ↔ value = ['N']) := by
  decide +kernel

lemma look_zero_iff (hperm : m.keys.Perm names) (hall : ∀ p ∈ m.entries, Allowed p) {name : List Char}
    (h : name ∈ ["C".toList, "I".toList, "A".toList]) :
    look m name (tableOf name) = 0 ↔ m.get name = some ['N'] := by
  have hname : ∀ name ∈ ["C".toList, "I".toList, "A".toList], name ∈ names := by decide
  obtain ⟨value, hvalue, hget⟩ := exists_value hperm hall (mem_tables (hname _ h))
  have hvalue' : m.get _ = some value := (lookup_eq_get m _).symm.trans (getItem_eq_ok hget)
  unfold look
  rw [hvalue', Option.bind_some, loss_zero _ h _ hvalue, Option.some.injEq]

lemma Weighed.Listed.noLoss_iff {c i a e : ℤ} (h : (weigh m).Listed c i a e) (hperm : m.keys.Perm names)
    (hall : ∀ p ∈ m.entries, Allowed p) : (c, i, a) = (0, 0, 0) ↔ NoLoss m := by
  have hzero : ∀ {q : ℚ} {n : ℤ}, q = n / 100 → (n = 0 ↔ q = 0) := by
    rintro q n rfl
    rw [div_eq_zero_iff]
    simp
  have hc := (hzero h.c).trans (look_zero_iff hperm hall (show "C".toList ∈ _ by simp))
  have hi := (hzero h.i).trans (look_zero_iff hperm hall (show "I".toList ∈ _ by simp))
  have ha := (hzero h.a).trans (look_zero_iff hperm hall (show "A".toList ∈ _ by simp))
  simp only [Prod.mk.injEq, hc, hi, ha, NoLoss, List.forall_mem_cons, List.not_mem_nil, false_imp_iff,
    implies_true, and_true]

/-- **Rounding does not change a score.** What is computed in floats is the number of tenths that exact
arithmetic gives, rounded once; it is nought exactly where there is no loss. -/
theorem score_survives_rounding {R : Type} {F : Arithmetic R} {val : R → ℚ} {rnd : ℚ → ℚ}
    (hF : Floating F val rnd) {v : List Char} {m : Metrics} (hm : parse v = .ok m) :
    ∃ (n : ℤ) (score : R), 0 ≤ n ∧ n ≤ 100 ∧ (n = 0 ↔ NoLoss m) ∧ baseScore exact v = .ok ((n : ℚ) / 10) ∧
      baseScore F v = .ok score ∧ val score = rnd (n / 10) := by
  obtain ⟨hperm, hall, -⟩ := parse_ok_iff.mp hm
  obtain ⟨c, i, a, e, hlisted⟩ := weigh_listed hperm hall
  obtain ⟨hlo, hhi, hzero⟩ := hlisted.tenthsOf_bounds
  refine ⟨tenthsOf (weigh m), scoreBy F (weigh m), hlo, hhi, hzero.trans (hlisted.noLoss_iff hperm hall), ?_, ?_,
    scoreBy_val hF hlisted⟩
  · unfold baseScore
    rw [hm]
    exact (scoreOf_eq exact hperm hall).trans (congrArg _ (scoreBy_val floating_exact hlisted))
  · unfold baseScore
    rw [hm]
    exact scoreOf_eq F hperm hall

/-- The metrics of the vector of the usage text, with a loss of availability that may be another one. -/
def usageMetrics (loss : Char) : Metrics where
  entries := [("AV".toList, ['L']), ("AC".toList, ['L']), ("PR".toList, ['N']), ("UI".toList, ['R']),
    ("S".toList, ['U']), ("C".toList, ['H']), ("I".toList, ['H']), ("A".toList, [loss])]
  nodup := names_nodup

lemma parse_usage {loss : Char} (h : [loss] ∈ (tableOf "A".toList).map Prod.fst) :
    parse (render (usageMetrics loss).entries) = .ok (usageMetrics loss) := by
  refine parse_ok_iff.mpr ⟨List.Perm.refl _, ?_, rfl⟩
  have hmem : ∀ name ∈ names, (name, tableOf name) ∈ WEIGHTS := fun _ => mem_tables
  have hvalues : ∀ p ∈ (usageMetrics loss).entries, p.1 ∈ names ∧ p.2 ∈ (tableOf p.1).map Prod.fst := by
    simp only [usageMetrics, List.forall_mem_cons, List.not_mem_nil, false_imp_iff, implies_true, and_true]
    exact ⟨by decide, by decide, by decide, by decide, by decide, by decide, by decide, by decide, h⟩
  exact fun p hp => ⟨_, hmem _ (hvalues p hp).1, (hvalues p hp).2⟩

theorem score_survives_rounding_usage : ∃ (n : ℤ) (score : ℚ), 0 ≤ n ∧ n ≤ 100 ∧
    (n = 0 ↔ NoLoss (usageMetrics 'H')) ∧
    baseScore exact (render (usageMetrics 'H').entries) = .ok ((n : ℚ) / 10) ∧
    baseScore double (render (usageMetrics 'H').entries) = .ok score ∧ score = rounded 52 (n / 10) :=
  score_survives_rounding floating_double (parse_usage (by decide))

/-! ### The order of the scores -/

lemma Floating.near_tenths {R : Type} {F : Arithmetic R} {val : R → ℚ} {rnd : ℚ → ℚ}
    (hF : Floating F val rnd) {n : ℤ} (hlo : 0 ≤ n) (hhi : n ≤ 100) : |rnd ((n : ℚ) / 10) - n / 10| ≤ δ := by
  have hlo' : (0 : ℚ) ≤ n := by exact_mod_cast hlo
  have hhi' : (n : ℚ) ≤ 100 := by exact_mod_cast hhi
  exact hF.near _ (abs_le.mpr ⟨by linarith, by linarith⟩)

lemma Floating.tenths_le {R : Type} {F : Arithmetic R} {val : R → ℚ} {rnd : ℚ → ℚ} (hF : Floating F val rnd)
    {n n' : ℤ} (hlo : 0 ≤ n) (h : n ≤ n') (hhi : n' ≤ 100) : rnd ((n : ℚ) / 10) ≤ rnd (n' / 10) := by
  rcases h.eq_or_lt with rfl | hlt
  · exact le_rfl
  · have hstep : (n : ℚ) + 1 ≤ n' := by exact_mod_cast hlt
    have hnear := abs_le.mp (hF.near_tenths hlo (h.trans hhi))
    have hnear' := abs_le.mp (hF.near_tenths (hlo.trans h) hhi)
    linarith [hnear.2, hnear'.1, (by norm_num : δ ≤ 1 / 100)]

/-- How severe the value of a metric is. -/
def rank (m : Metrics) (name : List Char) : ℚ :=
  if name = "S".toList then if changed m then 1 else 0 else look m name (tableOf name)

/-- A vector is at most as severe as another one, metric by metric. -/
def AtMost (m m' : Metrics) : Prop := ∀ name ∈ names, rank m name ≤ rank m' name

lemma AtMost.look {m m' : Metrics} (h : AtMost m m') {name : List Char} (hname : name ∈ names)
    (hscope : name ≠ "S".toList) : look m name (tableOf name) ≤ look m' name (tableOf name) := by
  have hrank := h name hname
  unfold rank at hrank
  rwa [if_neg hscope, if_neg hscope] at hrank

lemma AtMost.changed {m m' : Metrics} (h : AtMost m m') : changed m ≤ changed m' := by
  have hrank := h "S".toList (by decide)
  unfold rank at hrank
  rw [if_pos rfl, if_pos rfl] at hrank
  cases hm : Score.changed m with
  | false => exact Bool.false_le _
  | true =>
    cases hm' : Score.changed m' with
    | true => exact le_rfl
    | false =>
      rw [hm, hm', if_pos rfl, if_neg Bool.false_ne_true] at hrank
      norm_num at hrank

lemma privileges_mono : ∀ value ∈ (tableOf "PR".toList).map Prod.fst,
    ∀ value' ∈ (tableOf "PR".toList).map Prod.fst, ∀ ch ∈ [false, true], ∀ ch' ∈ [false, true], ch ≤ ch' →
      (((tableOf "PR".toList).lookup value).join.getD 0 : ℚ) ≤
        ((tableOf "PR".toList).lookup value').join.getD 0 →
      (((privilegeTable ch).lookup value).join.getD 0 : ℚ) ≤ ((privilegeTable ch').lookup value').join.getD 0 := by
  decide +kernel

/-- **More severe privileges, or a changed scope, weigh more.** -/
lemma AtMost.privileges {m m' : Metrics} (h : AtMost m m') (hperm : m.keys.Perm names)
    (hall : ∀ p ∈ m.entries, Allowed p) (hperm' : m'.keys.Perm names) (hall' : ∀ p ∈ m'.entries, Allowed p) :
    (weigh m).pr ≤ (weigh m').pr := by
  have hmem : ("PR".toList, tableOf "PR".toList) ∈ WEIGHTS := mem_tables (by decide)
  obtain ⟨value, hvalue, hget⟩ := exists_value hperm hall hmem
  obtain ⟨value', hvalue', hget'⟩ := exists_value hperm' hall' hmem
  have hrank := h.look (show "PR".toList ∈ names by decide) (by decide)
  have hat : m.get _ = some value := (lookup_eq_get m _).symm.trans (getItem_eq_ok hget)
  have hat' : m'.get _ = some value' := (lookup_eq_get m' _).symm.trans (getItem_eq_ok hget')
  show Score.look m _ _ ≤ Score.look m' _ _
  unfold Score.look at hrank ⊢
  rw [hat, hat', Option.bind_some, Option.bind_some] at hrank ⊢
  exact privileges_mono value hvalue value' hvalue' _ (mem_scopes _) _ (mem_scopes _) h.changed hrank

lemma exploitability_mono {w w' : Weighed} (hw : w.InRange) (hw' : w'.InRange) (hav : w.av ≤ w'.av)
    (hac : w.ac ≤ w'.ac) (hpr : w.pr ≤ w'.pr) (hui : w.ui ≤ w'.ui) :
    exploitabilityBy exact w ≤ exploitabilityBy exact w' := by
  have hfactors : ∀ {w : Weighed}, w.InRange → 0 ≤ w.av ∧ 0 ≤ w.ac ∧ 0 ≤ w.pr ∧ 0 ≤ w.ui :=
    fun hw => ⟨hw.av.1, hw.ac.1, hw.pr.1, hw.ui.1⟩
  obtain ⟨h1, h2, h3, h4⟩ := hfactors hw
  obtain ⟨h1', h2', h3', -⟩ := hfactors hw'
  show 8.22 * w.av * w.ac * w.pr * w.ui ≤ 8.22 * w'.av * w'.ac * w'.pr * w'.ui
  gcongr

lemma scaled_mono {ch ch' : Bool} {q q' : ℚ} (hch : ch ≤ ch') (hq : q ≤ q') (hq' : 0 ≤ q') :
    (if ch then 1.08 * q else q) ≤ if ch' then 1.08 * q' else q' := by
  cases ch with
  | false => cases ch' <;> simp <;> linarith
  | true =>
    rw [Bool.eq_true_of_true_le hch, if_pos rfl, if_pos rfl]
    linarith

lemma tenths_mono {n n' : ℤ} (h : n ≤ n') : tenths n ≤ tenths n' := by
  unfold tenths
  omega

/-- **A more severe vector has a score that is not smaller**, in tenths. -/
lemma tenthsOf_mono {m m' : Metrics} (h : AtMost m m') (hperm : m.keys.Perm names)
    (hall : ∀ p ∈ m.entries, Allowed p) (hperm' : m'.keys.Perm names) (hall' : ∀ p ∈ m'.entries, Allowed p) :
    tenthsOf (weigh m) ≤ tenthsOf (weigh m') := by
  obtain ⟨c, i, a, e, hlisted⟩ := weigh_listed hperm hall
  obtain ⟨c', i', a', e', hlisted'⟩ := weigh_listed hperm' hall'
  by_cases hpos : impactOf exact (weigh m).changed (issBy exact (weigh m).c (weigh m).i (weigh m).a) ≤ 0
  · rw [tenthsOf, if_pos hpos]
    exact hlisted'.tenthsOf_bounds.1
  have hloss : ∀ {q q' : ℚ} {n n' : ℤ}, q = n / 100 → q' = n' / 100 → q ≤ q' → n ≤ n' := by
    rintro q q' n n' rfl rfl hle
    have hcast : (n : ℚ) ≤ n' := by linarith
    exact_mod_cast hcast
  have himpact : impactOf exact (weigh m).changed (issBy exact (weigh m).c (weigh m).i (weigh m).a) ≤
      impactOf exact (weigh m').changed (issBy exact (weigh m').c (weigh m').i (weigh m').a) := by
    have hunits : 0 < impactUnits (weigh m).changed c i a := by
      rw [hlisted.impact_eq, not_le, div_pos_iff_of_pos_right (by positivity)] at hpos
      exact_mod_cast hpos
    obtain ⟨hc, hi, ha⟩ := hlisted.losses
    obtain ⟨hc', hi', ha'⟩ := hlisted'.losses
    rw [hlisted.impact_eq, hlisted'.impact_eq]
    refine div_le_div_of_nonneg_right ?_ (by positivity)
    exact_mod_cast impactUnits_mono _ (mem_scopes _) c hc i hi a ha _ (mem_scopes _) c' hc' i' hi' a' ha'
      h.changed (hloss hlisted.c hlisted'.c (h.look (by decide) (by decide)))
      (hloss hlisted.i hlisted'.i (h.look (by decide) (by decide)))
      (hloss hlisted.a hlisted'.a (h.look (by decide) (by decide))) hunits
  have hexploit : exploitabilityBy exact (weigh m) ≤ exploitabilityBy exact (weigh m') :=
    exploitability_mono hlisted.range hlisted'.range (h.look (by decide) (by decide)) (h.look (by decide) (by decide))
      (h.privileges hperm hall hperm' hall') (h.look (by decide) (by decide))
  have hvalue : valueBy exact (weigh m) ≤ valueBy exact (weigh m') := by
    refine min_le_min_right _ (scaled_mono h.changed (add_le_add himpact hexploit) ?_)
    exact add_nonneg ((not_le.mp hpos).le.trans himpact) (exploitability_bounds hlisted'.range).1
  rw [tenthsOf, tenthsOf, if_neg hpos, if_neg fun hle => hpos (himpact.trans hle)]
  exact tenths_mono (roundEven_mono (mul_le_mul_of_nonneg_right hvalue (by norm_num)))

/-- **A vector that is as severe in each of its metrics scores at least as much.** -/
theorem score_mono {R : Type} {F : Arithmetic R} {val : R → ℚ} {rnd : ℚ → ℚ} (hF : Floating F val rnd)
    {v v' : List Char} {m m' : Metrics} (hm : parse v = .ok m) (hm' : parse v' = .ok m') (h : AtMost m m') :
    ∃ score score', baseScore F v = .ok score ∧ baseScore F v' = .ok score' ∧ val score ≤ val score' := by
  obtain ⟨hperm, hall, -⟩ := parse_ok_iff.mp hm
  obtain ⟨hperm', hall', -⟩ := parse_ok_iff.mp hm'
  obtain ⟨c, i, a, e, hlisted⟩ := weigh_listed hperm hall
  obtain ⟨c', i', a', e', hlisted'⟩ := weigh_listed hperm' hall'
  refine ⟨scoreBy F (weigh m), scoreBy F (weigh m'), ?_, ?_, ?_⟩
  · unfold baseScore
    rw [hm]
    exact scoreOf_eq F hperm hall
  · unfold baseScore
    rw [hm']
    exact scoreOf_eq F hperm' hall'
  · rw [scoreBy_val hF hlisted, scoreBy_val hF hlisted']
    exact hF.tenths_le hlisted.tenthsOf_bounds.1 (tenthsOf_mono h hperm hall hperm' hall')
      hlisted'.tenthsOf_bounds.2.1

theorem score_mono_usage : ∃ score score', baseScore double (render (usageMetrics 'L').entries) = .ok score ∧
    baseScore double (render (usageMetrics 'H').entries) = .ok score' ∧ score ≤ score' :=
  score_mono floating_double (parse_usage (by decide)) (parse_usage (by decide)) (by unfold AtMost; decide +kernel)

end Vectors

/-! ### The program -/

/-- `severity` -/
def severity (score : ℚ) : List Char :=
  if score = 0 then "None".toList
  else if score < 4 then "Low".toList
  else if score < 7 then "Medium".toList
  else if score < 9 then "High".toList
  else "Critical".toList

/-- `f"{score:4.1f}"`, for a score that is not negative. -/
def scoreText (score : ℚ) : List Char :=
  let n := (roundEven (score * 10)).toNat
  let text := (toString (n / 10)).toList ++ '.' :: (toString (n % 10)).toList
  List.replicate (4 - text.length) ' ' ++ text

/-- `f"{score:4.1f} {severity(score):8} {vector}"` -/
def lineOf (score : ℚ) (vector : List Char) : List Char :=
  scoreText score ++ ' ' :: severity score ++ List.replicate (8 - (severity score).length) ' ' ++ ' ' :: vector

/-- `__doc__.strip()` -/
def doc : List Char :=
  ("CVSS 3.1 base score from a vector string, as defined in the FIRST specification.\n\n" ++
    "Usage: python scripts/cvss.py 'CVSS:3.1/AV:L/AC:L/PR:N/UI:R/S:U/C:H/I:H/A:H' [...]\n" ++
    "Exit 0 when every vector parses, 2 otherwise.").toList

/-- What a run of the program prints, line by line, and its status. -/
structure Run where
  stdout : List (List Char)
  stderr : List (List Char)
  status : ℕ

section

variable {R : Type} (F : Arithmetic R) (val : R → ℚ) (repr : List Char → List Char)

/-- The body of the loop of `main`. -/
def mainStep (run : Run) (vector : List Char) : Except Raised Run :=
  match baseScore F vector with
  | .ok score => .ok { run with stdout := run.stdout ++ [lineOf (val score) vector] }
  | .error (.valueError c) =>
    .ok { run with stderr := run.stderr ++ ["cvss: ".toList ++ c.text repr], status := 2 }
  | .error e => .error e

/-- `main` -/
def main (argv : List (List Char)) : Except Raised Run :=
  if argv = [] then .ok ⟨[], [doc], 2⟩ else argv.foldlM (mainStep F val repr) ⟨[], [], 0⟩

variable {F val} {rnd : ℚ → ℚ}

/-- A float is on the same side of an integer as the number of tenths. -/
lemma Floating.tenths_lt_iff (hF : Floating F val rnd) {n : ℤ} (hlo : 0 ≤ n) (hhi : n ≤ 100) {k : ℤ}
    (hk : |k| ≤ 10) : rnd ((n : ℚ) / 10) < k ↔ (n : ℚ) / 10 < k := by
  obtain ⟨hlow, hhigh⟩ := abs_le.mp (hF.near_tenths hlo hhi)
  have hsmall : δ ≤ 1 / 100 := by norm_num
  rcases lt_trichotomy n (10 * k) with hlt | rfl | hgt
  · have hstep : (n : ℚ) + 1 ≤ 10 * k := by exact_mod_cast hlt
    exact iff_of_true (by linarith) (by linarith)
  · have hquot : ((10 * k : ℤ) : ℚ) / 10 = k := by
      push_cast
      ring
    rw [hquot, hF.rnd_int k (hk.trans (by norm_num))]
  · have hstep : (10 * k : ℚ) + 1 ≤ n := by exact_mod_cast hgt
    exact iff_of_false (by linarith) (by linarith)

lemma Floating.severity_tenths (hF : Floating F val rnd) {n : ℤ} (hlo : 0 ≤ n) (hhi : n ≤ 100) :
    severity (rnd ((n : ℚ) / 10)) = severity (n / 10) := by
  have hzero : rnd ((n : ℚ) / 10) = 0 ↔ (n : ℚ) / 10 = 0 := by
    rcases hlo.eq_or_lt with rfl | hpos
    · have := hF.rnd_int 0 (by norm_num)
      simpa using this
    · have hone : (1 : ℚ) ≤ n := by exact_mod_cast hpos
      have hlow := (abs_le.mp (hF.near_tenths hlo hhi)).1
      have hsmall : δ ≤ 1 / 100 := by norm_num
      exact iff_of_false (by linarith) (by linarith)
  have h4 := hF.tenths_lt_iff hlo hhi (k := 4) (by norm_num)
  have h7 := hF.tenths_lt_iff hlo hhi (k := 7) (by norm_num)
  have h9 := hF.tenths_lt_iff hlo hhi (k := 9) (by norm_num)
  push_cast at h4 h7 h9
  unfold severity
  simp only [hzero, h4, h7, h9]

lemma Floating.scoreText_tenths (hF : Floating F val rnd) {n : ℤ} (hlo : 0 ≤ n) (hhi : n ≤ 100) :
    scoreText (rnd ((n : ℚ) / 10)) = scoreText (n / 10) := by
  obtain ⟨hlow, hhigh⟩ := abs_le.mp (hF.near_tenths hlo hhi)
  have hsmall : δ ≤ 1 / 100 := by norm_num
  have hround : roundEven (rnd ((n : ℚ) / 10) * 10) = n :=
    roundEven_eq (abs_lt.mpr ⟨by linarith, by linarith⟩)
  have hexact : roundEven ((n : ℚ) / 10 * 10) = n :=
    roundEven_eq (abs_lt.mpr ⟨by linarith, by linarith⟩)
  unfold scoreText
  rw [hround, hexact]

/-- The line that is printed for a vector, if one is. -/
def printed (vector : List Char) : Option (List Char) :=
  (baseScore exact vector).toOption.map fun score => lineOf score vector

lemma mainStep_base (hF : Floating F val rnd) (run : Run) {v : List Char} (hv : BaseVector v) :
    ∃ line, printed v = some line ∧
      mainStep F val repr run v = .ok { run with stdout := run.stdout ++ [line] } := by
  obtain ⟨m, hm⟩ := exists_parse_iff.mpr hv
  obtain ⟨hperm, hall, -⟩ := parse_ok_iff.mp hm
  obtain ⟨c, i, a, e, hlisted⟩ := weigh_listed hperm hall
  obtain ⟨hlo, hhi, -⟩ := hlisted.tenthsOf_bounds
  have hscore : ∀ {R : Type} (F : Arithmetic R), baseScore F v = .ok (scoreBy F (weigh m)) := by
    intro R F
    unfold baseScore
    rw [hm]
    exact scoreOf_eq F hperm hall
  refine ⟨lineOf ((tenthsOf (weigh m) : ℚ) / 10) v, ?_, ?_⟩
  · unfold printed
    rw [hscore, show scoreBy exact (weigh m) = (tenthsOf (weigh m) : ℚ) / 10 from
      scoreBy_val floating_exact hlisted]
    rfl
  · unfold mainStep
    simp only [hscore, scoreBy_val hF hlisted]
    unfold lineOf
    rw [hF.scoreText_tenths hlo hhi, hF.severity_tenths hlo hhi]

lemma mainStep_other {v : List Char} (hv : ¬ BaseVector v) :
    printed v = none ∧ ∃ c : Complaint, ∀ {R : Type} (F : Arithmetic R) (val : R → ℚ) (run : Run),
      mainStep F val repr run v =
        .ok { run with stderr := run.stderr ++ ["cvss: ".toList ++ c.text repr], status := 2 } := by
  cases hparse : parse v with
  | ok m => exact absurd (exists_parse_iff.mp ⟨m, hparse⟩) hv
  | error e =>
    obtain ⟨c, rfl⟩ := parse_error hparse
    have hscore : ∀ {R : Type} (F : Arithmetic R), baseScore F v = .error (.valueError c) := by
      intro R F
      unfold baseScore
      rw [hparse]
      rfl
    refine ⟨?_, c, fun F val run => ?_⟩
    · unfold printed
      rw [hscore]
      rfl
    · unfold mainStep
      simp only [hscore]

/-- **A line is printed** exactly for a base vector. -/
lemma isSome_printed_iff {v : List Char} : (printed v).isSome = true ↔ BaseVector v := by
  by_cases hv : BaseVector v
  · obtain ⟨line, hline, -⟩ := mainStep_base id floating_exact ⟨[], [], 0⟩ hv
    exact iff_of_true (by rw [hline]; rfl) hv
  · exact iff_of_false (by rw [(mainStep_other id hv).1]; exact Bool.false_ne_true) hv

/-- **The loop of `main`** does the same in floats as in exact arithmetic. -/
lemma mainLoop_exact (hF : Floating F val rnd) (argv : List (List Char)) (run : Run) :
    ∃ run', argv.foldlM (mainStep F val repr) run = .ok run' ∧
      argv.foldlM (mainStep exact id repr) run = .ok run' ∧
      run'.stdout = run.stdout ++ argv.filterMap printed ∧
      ((∀ v ∈ argv, BaseVector v) → run'.status = run.status) ∧
      (¬ (∀ v ∈ argv, BaseVector v) → run'.status = 2) ∧ (run.status = 2 → run'.status = 2) := by
  induction argv generalizing run with
  | nil => exact ⟨run, rfl, rfl, by simp, fun _ => rfl, fun h => absurd (by simp) h, id⟩
  | cons v argv ih =>
    simp only [List.foldlM_cons, List.forall_mem_cons]
    by_cases hv : BaseVector v
    · obtain ⟨line, hline, hstep⟩ := mainStep_base repr hF run hv
      obtain ⟨line', hline', hstep'⟩ := mainStep_base repr floating_exact run hv
      obtain rfl : line = line' := Option.some.inj (hline.symm.trans hline')
      obtain ⟨run', h1, h2, hout, hall, hother, hkept⟩ := ih { run with stdout := run.stdout ++ [line] }
      rw [hstep, hstep']
      refine ⟨run', h1, h2, ?_, fun h => hall h.2, fun h => hother fun hargv => h ⟨hv, hargv⟩, hkept⟩
      rw [hout, List.filterMap_cons_some hline, List.append_assoc]
      rfl
    · obtain ⟨hnone, c, hstep⟩ := mainStep_other repr hv
      obtain ⟨run', h1, h2, hout, -, -, hkept⟩ :=
        ih { run with stderr := run.stderr ++ ["cvss: ".toList ++ c.text repr], status := 2 }
      rw [hstep F val run, hstep exact id run]
      refine ⟨run', h1, h2, ?_, fun h => absurd h.1 hv, fun _ => hkept rfl, fun _ => hkept rfl⟩
      rw [hout, List.filterMap_cons_none hnone]

/-- **A run prints the same in floats** as in exact arithmetic, and no exception ends it. There is a line for
each base vector, in their order, and none for anything else; the status is nought if there are base vectors and
nothing else, and two otherwise. -/
theorem main_exact (hF : Floating F val rnd) (argv : List (List Char)) :
    ∃ run, main F val repr argv = .ok run ∧ main exact id repr argv = .ok run ∧
      run.stdout = argv.filterMap printed ∧ (∀ v, (printed v).isSome = true ↔ BaseVector v) ∧
      (run.status = 0 ∨ run.status = 2) ∧ (run.status = 0 ↔ argv ≠ [] ∧ ∀ v ∈ argv, BaseVector v) := by
  unfold main
  by_cases hargv : argv = []
  · rw [if_pos hargv, if_pos hargv]
    exact ⟨_, rfl, rfl, by simp [hargv], fun v => isSome_printed_iff, .inr rfl, by simp [hargv]⟩
  · rw [if_neg hargv, if_neg hargv]
    obtain ⟨run, h1, h2, hout, hall, hother, -⟩ := mainLoop_exact repr hF argv ⟨[], [], 0⟩
    refine ⟨run, h1, h2, hout, fun v => isSome_printed_iff, ?_⟩
    by_cases hbase : ∀ v ∈ argv, BaseVector v
    · exact ⟨.inl (hall hbase), iff_of_true (hall hbase) ⟨hargv, hbase⟩⟩
    · refine ⟨.inr (hother hbase), iff_of_false ?_ fun h => hbase h.2⟩
      rw [hother hbase]
      decide

/-- Two base vectors, and one argument between them that is none. -/
def usageArgs : List (List Char) :=
  [render (usageMetrics 'H').entries, "CVSS:3.1/AV:L".toList, render (usageMetrics 'N').entries]

theorem main_exact_usage : ∃ run, main double id id usageArgs = .ok run ∧ main exact id id usageArgs = .ok run ∧
    run.stdout.length = 2 ∧ run.status = 2 := by
  obtain ⟨run, hfloat, hexact, hout, hprinted, hstatus, hzero⟩ := main_exact id floating_double usageArgs
  have hbase : ∀ {loss : Char}, [loss] ∈ (tableOf "A".toList).map Prod.fst →
      BaseVector (render (usageMetrics loss).entries) := fun h => exists_parse_iff.mp ⟨_, parse_usage h⟩
  have hbad : ¬ BaseVector "CVSS:3.1/AV:L".toList := by
    rw [← exists_parse_iff]
    rintro ⟨m, hm⟩
    cases hm
  obtain ⟨line, hline⟩ := Option.isSome_iff_exists.mp ((hprinted _).mpr (@hbase 'H' (by decide)))
  obtain ⟨line', hline'⟩ := Option.isSome_iff_exists.mp ((hprinted _).mpr (@hbase 'N' (by decide)))
  have hnone : printed "CVSS:3.1/AV:L".toList = none :=
    Option.not_isSome_iff_eq_none.mp fun h => hbad ((hprinted _).mp h)
  refine ⟨run, hfloat, hexact, ?_, hstatus.resolve_left fun h => hbad ((hzero.mp h).2 _ (by simp [usageArgs]))⟩
  rw [hout, usageArgs, List.filterMap_cons_some hline, List.filterMap_cons_none hnone,
    List.filterMap_cons_some hline']
  rfl

end

end CSecureBuild.Scripts.Score
