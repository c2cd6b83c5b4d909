import CSecureBuild.CLib.Numbers

/-!
The numerals of `strtol` in base ten, as texts that denote integers, and what `strtol` makes of them
and of other texts. Only the clamping depends on the width of `long`.
-/

namespace CSecureBuild.CLib.Numbers

/-! ### Numerals -/

/-- What a sign stands for. -/
inductive SignOf : List UInt8 → ℤ → Prop where
  | none : SignOf [] 1
  | plus : SignOf [43] 1
  | minus : SignOf [45] (-1)

/-- What a digit stands for. -/
def digitValue (c : UInt8) : ℕ := c.toNat - 48

/-- **A text denotes an integer**: spaces, a sign and digits, of which there is one at least. -/
def Denotes (text : List UInt8) (v : ℤ) : Prop :=
  ∃ spaces mark digits factor, text = spaces ++ (mark ++ digits) ∧
    (∀ c ∈ spaces, isspace c = true) ∧ SignOf mark factor ∧
    digits ≠ [] ∧ (∀ c ∈ digits, isdigit c = true) ∧
    v = factor * (Nat.ofDigits 10 (digits.reverse.map digitValue) : ℕ)

lemma decimal_eq_ofDigits (digits : List UInt8) :
    decimal digits = Nat.ofDigits 10 (digits.reverse.map digitValue) := by
  induction digits using List.reverseRecOn with
  | nil => rfl
  | append_singleton digits c ih =>
    rw [List.reverse_concat, List.map_cons, Nat.ofDigits_cons, ← ih]
    simp only [decimal, List.foldl_append, List.foldl_cons, List.foldl_nil, digitValue]
    omega

lemma isspace_of_isdigit {c : UInt8} (h : isdigit c = true) : isspace c = false := by
  simp only [isdigit, decide_eq_true_eq] at h
  simp only [isspace, decide_eq_false_iff_not, not_or, not_and]
  have h48 : 48 ≤ c.toNat := UInt8.le_iff_toNat_le.mp h.1
  refine ⟨?_, fun _ h13 => ?_⟩
  · rintro rfl
    exact absurd h48 (by decide)
  · have : c.toNat ≤ 13 := UInt8.le_iff_toNat_le.mp h13
    omega

/-! ### Signs -/

variable {text digits : List UInt8} {v : ℤ}

lemma sign_append {mark : List UInt8} {factor : ℤ} (h : SignOf mark factor)
    (hdigits : ∀ c ∈ digits, isdigit c = true) : sign (mark ++ digits) = (factor, digits) := by
  cases h with
  | plus => rfl
  | minus => rfl
  | none =>
    cases digits with
    | nil => rfl
    | cons c rest =>
      have hc := hdigits c List.mem_cons_self
      have hplus : c ≠ 43 := by rintro rfl; exact absurd hc (by decide)
      have hminus : c ≠ 45 := by rintro rfl; exact absurd hc (by decide)
      simp only [List.nil_append]
      unfold sign
      split
      · rename_i heq
        exact absurd (List.cons.inj heq).1 hplus
      · rename_i heq
        exact absurd (List.cons.inj heq).1 hminus
      · rfl

lemma exists_signOf (rest : List UInt8) :
    ∃ mark, rest = mark ++ (sign rest).2 ∧ SignOf mark (sign rest).1 := by
  unfold sign
  split
  · exact ⟨[43], rfl, .plus⟩
  · exact ⟨[45], rfl, .minus⟩
  · exact ⟨[], rfl, .none⟩

lemma dropWhile_spaces {spaces mark : List UInt8} {factor : ℤ} (hspaces : ∀ c ∈ spaces, isspace c = true)
    (hmark : SignOf mark factor) (hne : digits ≠ []) (hdigits : ∀ c ∈ digits, isdigit c = true) :
    (spaces ++ (mark ++ digits)).dropWhile isspace = mark ++ digits := by
  rw [List.dropWhile_append_of_pos hspaces]
  cases hmark with
  | plus => rfl
  | minus => rfl
  | none =>
    obtain ⟨c, rest, rfl⟩ := List.exists_cons_of_ne_nil hne
    have hc := isspace_of_isdigit (hdigits c List.mem_cons_self)
    rw [List.nil_append, List.dropWhile_cons_of_neg (by rw [hc]; exact Bool.false_ne_true)]

/-! ### What `strtol` returns -/

/-- **`strtol` on a numeral** stops behind it, with its value or the nearest `long`. -/
theorem strtol_of_denotes (h : Denotes text v) (long64 : Bool) :
    text ≠ [] ∧ strtol long64 text =
      if v < longMin long64 then ⟨longMin long64, text.length, true⟩
      else if longMax long64 < v then ⟨longMax long64, text.length, true⟩
      else ⟨v, text.length, false⟩ := by
  obtain ⟨spaces, mark, digits, factor, rfl, hspaces, hmark, hne, hdigits, rfl⟩ := h
  have hstop : (spaces ++ (mark ++ digits)).length - digits.length + digits.length =
      (spaces ++ (mark ++ digits)).length := by
    simp only [List.length_append]
    omega
  refine ⟨by simp [hne], ?_⟩
  unfold strtol
  simp only [dropWhile_spaces hspaces hmark hne hdigits, sign_append hmark hdigits,
    List.takeWhile_eq_self_iff.mpr hdigits, if_neg hne, decimal_eq_ofDigits, hstop]

lemma strtol_stop (long64 : Bool) (text : List UInt8) : (strtol long64 text).stop =
    if (sign (text.dropWhile isspace)).2.takeWhile isdigit = [] then 0
    else text.length - (sign (text.dropWhile isspace)).2.length +
      ((sign (text.dropWhile isspace)).2.takeWhile isdigit).length := by
  unfold strtol
  simp only
  split_ifs <;> rfl

/-- **`strtol` on any other text** finds nothing, or stops before the end. -/
theorem strtol_of_not_denotes (h : ∀ v, ¬ Denotes text v) (long64 : Bool) :
    (strtol long64 text).stop = 0 ∨ (strtol long64 text).stop ≠ text.length := by
  by_contra hc
  push Not at hc
  obtain ⟨hne, hall⟩ := hc
  obtain ⟨mark, hrest, hmark⟩ := exists_signOf (text.dropWhile isspace)
  have htext : text = text.takeWhile isspace ++ (mark ++ (sign (text.dropWhile isspace)).2) := by
    rw [← hrest, List.takeWhile_append_dropWhile]
  have hlength := congrArg List.length htext
  rw [List.length_append, List.length_append] at hlength
  rw [strtol_stop] at hne hall
  split_ifs at hne hall with hdigits
  · exact hne rfl
  -- the digits reach as far as the text does
  have hbody : (sign (text.dropWhile isspace)).2.takeWhile isdigit =
      (sign (text.dropWhile isspace)).2 := by
    refine (List.takeWhile_prefix isdigit).eq_of_length ?_
    omega
  rw [hbody] at hdigits
  exact h _ ⟨_, mark, _, _, htext, fun c hc => List.mem_takeWhile_imp hc, hmark, hdigits,
    List.takeWhile_eq_self_iff.mp hbody, rfl⟩

lemma Denotes.unique {v' : ℤ} (h : Denotes text v) (h' : Denotes text v') : v = v' := by
  obtain ⟨spaces, mark, digits, factor, rfl, hspaces, hmark, hne, hdigits, rfl⟩ := h
  obtain ⟨spaces', mark', digits', factor', heq, hspaces', hmark', hne', hdigits', rfl⟩ := h'
  have hdrop := congrArg (List.dropWhile isspace) heq
  rw [dropWhile_spaces hspaces hmark hne hdigits, dropWhile_spaces hspaces' hmark' hne' hdigits'] at hdrop
  have hsign := congrArg sign hdrop
  rw [sign_append hmark hdigits, sign_append hmark' hdigits', Prod.mk.injEq] at hsign
  rw [hsign.1, hsign.2]

end CSecureBuild.CLib.Numbers
