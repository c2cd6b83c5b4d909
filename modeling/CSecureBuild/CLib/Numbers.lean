import CSecureBuild.CLib.Memory

/-!
Numbers in C strings: `strtol` in base ten and `atoi`. A text is the string without its NUL, so the
end pointer of `strtol` is at the NUL exactly when it is at the length of the text.
-/

namespace CSecureBuild.CLib.Numbers

open CSecureBuild.CLib.Memory

/-- The least `int`. -/
abbrev intMin : ℤ := -2 ^ 31

/-- The greatest `int`. -/
abbrev intMax : ℤ := 2 ^ 31 - 1

/-- The greatest `long`, which has 64 bits or 32. -/
def longMax (long64 : Bool) : ℤ := if long64 then 2 ^ 63 - 1 else 2 ^ 31 - 1

/-- The least `long`. -/
def longMin (long64 : Bool) : ℤ := -longMax long64 - 1

/-- `isspace` in the C locale. -/
def isspace (c : UInt8) : Bool := decide (c = 32 ∨ 9 ≤ c ∧ c ≤ 13)

/-- `isdigit`. -/
def isdigit (c : UInt8) : Bool := decide (48 ≤ c ∧ c ≤ 57)

/-- The number a run of digits denotes. -/
def decimal (digits : List UInt8) : ℕ := digits.foldl (fun n c => 10 * n + (c.toNat - 48)) 0

/-- A leading sign, as a factor, and the text behind it. -/
def sign : List UInt8 → ℤ × List UInt8
  | 43 :: rest => (1, rest)
  | 45 :: rest => (-1, rest)
  | rest => (1, rest)

/-- What `strtol` returns, how many bytes stand before its end pointer, and whether it set `errno`
to `ERANGE`. -/
structure Strtol where
  value : ℤ
  stop : ℕ
  erange : Bool

/-- `strtol` in base ten. -/
def strtol (long64 : Bool) (text : List UInt8) : Strtol :=
  let rest := text.dropWhile isspace
  let (factor, body) := sign rest
  let digits := body.takeWhile isdigit
  let stop := text.length - body.length + digits.length
  let value := factor * (decimal digits : ℤ)
  if digits = [] then ⟨0, 0, false⟩
  else if value < longMin long64 then ⟨longMin long64, stop, true⟩
  else if longMax long64 < value then ⟨longMax long64, stop, true⟩
  else ⟨value, stop, false⟩

/-- The number at the front of a text, zero if there is none. -/
def leading (text : List UInt8) : ℤ :=
  let (factor, body) := sign (text.dropWhile isspace)
  factor * (decimal (body.takeWhile isdigit) : ℤ)

/-- `atoi`, which has no defined value for a number that is no `int`. -/
def atoi (text : List UInt8) : Except Fault ℤ :=
  if intMin ≤ leading text ∧ leading text ≤ intMax then pure (leading text) else .error .unrepresentable

lemma atoi_error_iff {text : List UInt8} {fault : Fault} :
    atoi text = .error fault ↔
      ¬ (intMin ≤ leading text ∧ leading text ≤ intMax) ∧ fault = .unrepresentable := by
  unfold atoi
  by_cases h : intMin ≤ leading text ∧ leading text ≤ intMax
  · rw [if_pos h]
    exact iff_of_false nofun fun h' => h'.1 h
  · rw [if_neg h, Except.error.injEq]
    exact ⟨fun he => ⟨h, he.symm⟩, fun he => he.2.symm⟩

/-- What `strtol` reads without an error is the number. -/
lemma strtol_leading {long64 : Bool} {text : List UInt8} (h : (strtol long64 text).erange = false) :
    (strtol long64 text).value = leading text := by
  unfold strtol at h ⊢
  unfold leading
  simp only at h ⊢
  split_ifs at h ⊢ with hnone hlow hhigh
  · rw [hnone]
    exact (mul_zero _).symm
  · rfl

end CSecureBuild.CLib.Numbers
