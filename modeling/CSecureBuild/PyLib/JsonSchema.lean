import CSecureBuild.PyLib.Objects

/-!
The validation part of JSON Schema, keyword by keyword: each keyword says something about the values of one
kind, and `type` of which kind a value is. What a keyword does not speak of is valid.
-/

namespace CSecureBuild.PyLib.JsonSchema

open CSecureBuild.PyLib.Objects

/-- The kinds of JSON values. -/
inductive Kind where
  | null
  | boolean
  | number
  | string
  | array
  | object
  deriving DecidableEq

/-- The kind of a value: a boolean is no number. -/
def kindOf : Object → Kind
  | .null => .null
  | .bool _ => .boolean
  | .num _ => .number
  | .str _ => .string
  | .list _ => .array
  | .dict _ => .object

/-- A number is at least a bound. -/
def atLeast (bound : ℚ) : Number → Prop
  | .finite q => bound ≤ q
  | .infinity negative => negative = false
  | .nan => False

/-- A number is at most a bound. -/
def atMost (bound : ℚ) : Number → Prop
  | .finite q => q ≤ bound
  | .infinity negative => negative = true
  | .nan => False

/-- A schema document: the keywords that it has. -/
inductive Document where
  | mk (type : Option Kind) (enum : Option (List Object)) (minimum maximum : Option ℚ)
    (maxLength : Option ℕ) (properties : List (String × Document)) (required : List String)
    (additionalProperties : Bool)

/-- **Validity**, with a clause for each keyword. -/
inductive Validates : Document → Object → Prop where
  | all {type : Option Kind} {enum : Option (List Object)} {minimum maximum : Option ℚ}
      {maxLength : Option ℕ} {properties : List (String × Document)} {required : List String}
      {additionalProperties : Bool} {value : Object}
      (htype : ∀ kind ∈ type, kindOf value = kind)
      (henum : ∀ values ∈ enum, value ∈ values)
      (hminimum : ∀ bound ∈ minimum, ∀ n, value = .num n → atLeast bound n)
      (hmaximum : ∀ bound ∈ maximum, ∀ n, value = .num n → atMost bound n)
      (hlength : ∀ bound ∈ maxLength, ∀ text, value = .str text → text.length ≤ bound)
      (hproperties : ∀ name schema, (name, schema) ∈ properties → ∀ member,
        value.item name = some member → Validates schema member)
      (hrequired : ∀ name ∈ required, value.isDict = true → value.item name ≠ none)
      (hadditional : additionalProperties = false → ∀ name, value.item name ≠ none →
        ∃ p ∈ properties, p.1 = name) :
      Validates (.mk type enum minimum maximum maxLength properties required additionalProperties) value

/-! ### Schemas for values without members -/

/-- A schema for strings: one of some, if they are given, and not longer than a bound, if there is one. -/
def stringSchema (enum : Option (List Object)) (maxLength : Option ℕ) : Document :=
  .mk (some .string) enum none none maxLength [] [] true

/-- A schema for numbers from a bound to another. -/
def numberSchema (minimum maximum : ℚ) : Document :=
  .mk (some .number) none (some minimum) (some maximum) none [] [] true

lemma kindOf_eq_string {value : Object} : kindOf value = .string ↔ ∃ text, value = .str text := by
  cases value <;> simp [kindOf]

lemma kindOf_eq_number {value : Object} : kindOf value = .number ↔ ∃ n, value = .num n := by
  cases value <;> simp [kindOf]

lemma kindOf_eq_object {value : Object} : kindOf value = .object ↔ value.isDict = true := by
  cases value <;> simp [kindOf, Object.isDict]

lemma between_iff {lo hi : ℚ} {n : Number} : n.between lo hi = true ↔ atLeast lo n ∧ atMost hi n := by
  cases n with
  | infinity negative => cases negative <;> simp [Number.between, atLeast, atMost]
  | _ => simp [Number.between, atLeast, atMost]

lemma validates_string {enum : Option (List Object)} {maxLength : Option ℕ} {value : Object} :
    Validates (stringSchema enum maxLength) value ↔ ∃ text, value = .str text ∧
      (∀ values ∈ enum, value ∈ values) ∧ ∀ bound ∈ maxLength, text.length ≤ bound := by
  constructor
  · rintro ⟨htype, henum, -, -, hlength, -, -, -⟩
    obtain ⟨text, rfl⟩ := kindOf_eq_string.mp (htype _ rfl)
    exact ⟨text, rfl, henum, fun bound hbound => hlength bound hbound text rfl⟩
  · rintro ⟨text, rfl, henum, hlength⟩
    refine .all ?_ henum ?_ ?_ ?_ ?_ ?_ ?_
    · exact fun kind hkind => Option.some.inj hkind
    · exact fun bound hbound => by cases hbound
    · exact fun bound hbound => by cases hbound
    · rintro bound hbound _ ⟨⟩
      exact hlength bound hbound
    · exact fun name schema hmem => by cases hmem
    · exact fun name hname => by cases hname
    · exact fun h => by cases h

lemma validates_number {minimum maximum : ℚ} {value : Object} :
    Validates (numberSchema minimum maximum) value ↔
      ∃ n, value = .num n ∧ n.between minimum maximum = true := by
  constructor
  · rintro ⟨htype, -, hminimum, hmaximum, -, -, -, -⟩
    obtain ⟨n, rfl⟩ := kindOf_eq_number.mp (htype _ rfl)
    exact ⟨n, rfl, between_iff.mpr ⟨hminimum _ rfl n rfl, hmaximum _ rfl n rfl⟩⟩
  · rintro ⟨n, rfl, h⟩
    obtain ⟨hminimum, hmaximum⟩ := between_iff.mp h
    refine .all ?_ ?_ ?_ ?_ ?_ ?_ ?_ ?_
    · exact fun kind hkind => Option.some.inj hkind
    · exact fun values hvalues => by cases hvalues
    · rintro _ ⟨⟩ _ ⟨⟩
      exact hminimum
    · rintro _ ⟨⟩ _ ⟨⟩
      exact hmaximum
    · exact fun bound hbound => by cases hbound
    · exact fun name schema hmem => by cases hmem
    · exact fun name hname => by cases hname
    · exact fun h => by cases h

end CSecureBuild.PyLib.JsonSchema
