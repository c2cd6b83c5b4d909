import Mathlib

/-!
What `json.loads` makes of a text, as an object with the operations of Python on it: truth, `.get`, `[...]`
and `len`. An operation that an object does not support raises, and gives `none` here. The second part is
the part of JSON Schema for flat objects.
-/

namespace CSecureBuild.PyLib.Objects

/-! ### Objects -/

/-- A number: an int or a float. -/
inductive Number where
  | finite (q : ℚ)
  | infinity (negative : Bool)
  | nan
  deriving DecidableEq

/-- The number lies between two others. -/
def Number.between (lo hi : ℚ) : Number → Bool
  | .finite q => lo ≤ q && q ≤ hi
  | _ => false

/-- An object that `json.loads` gives. Of equal keys of a dictionary, the first counts. -/
inductive Object where
  | null
  | bool (b : Bool)
  | num (n : Number)
  | str (s : List Char)
  | list (items : List Object)
  | dict (members : List (List Char × Object))

/-- What `json.loads` does with a text: an object, a `JSONDecodeError`, or another exception. -/
inductive Parsed where
  | value (object : Object)
  | notJson
  | raises

namespace Object

/-- `bool(object)` -/
def truthy : Object → Bool
  | .null => false
  | .bool b => b
  | .num n => n ≠ .finite 0
  | .str s => !s.isEmpty
  | .list items => !items.isEmpty
  | .dict members => !members.isEmpty

/-- `object or {}` -/
def orDict (object : Object) : Object := if object.truthy then object else .dict []

/-- `object or ""` -/
def orText (object : Object) : Object := if object.truthy then object else .str []

/-- `object.get(name)`: only a dictionary has it. -/
def get (name : String) : Object → Option Object
  | .dict members => some ((members.lookup name.toList).getD .null)
  | _ => none

/-- `object[name]` -/
def item (name : String) : Object → Option Object
  | .dict members => members.lookup name.toList
  | _ => none

/-- `object[0]` -/
def first : Object → Option Object
  | .str (c :: _) => some (.str [c])
  | .list (item :: _) => some item
  | _ => none

/-- `len(object)` -/
def len : Object → Option ℕ
  | .str s => some s.length
  | .list items => some items.length
  | .dict members => some (members.map Prod.fst).dedup.length
  | _ => none

/-- `isinstance(object, dict)` -/
def isDict : Object → Bool
  | .dict _ => true
  | _ => false

/-- `isinstance(object, str)` -/
def isText : Object → Bool
  | .str _ => true
  | _ => false

/-- `object[:n]` -/
def upTo (n : ℕ) : Object → Option Object
  | .str s => some (.str (s.take n))
  | .list items => some (.list (items.take n))
  | _ => none

/-- The keys of a dictionary. -/
def keys : Object → List (List Char)
  | .dict members => members.map Prod.fst
  | _ => []

/-- The value of a key, `None` where there is none. -/
def field (name : String) (object : Object) : Object := (object.get name).getD .null

lemma get_eq_some {object value : Object} {name : String} :
    object.get name = some value ↔ object.isDict = true ∧ object.field name = value := by
  cases object <;> simp [get, isDict, field]

lemma get_of_isDict {object : Object} {name : String} (h : object.isDict = true) :
    object.get name = some (object.field name) :=
  get_eq_some.mpr ⟨h, rfl⟩

lemma field_of_item {object value : Object} {name : String} (h : object.item name = some value) :
    object.field name = value := by
  cases object with
  | dict members => exact congrArg (fun v => v.getD .null) h
  | _ => cases h

lemma mem_keys {object : Object} {k : List Char} :
    k ∈ object.keys ↔ ∃ name : String, name.toList = k ∧ object.item name ≠ none := by
  have hitem : ∀ members : List (List Char × Object),
      k ∈ members.map Prod.fst ↔ members.lookup k ≠ none := by
    intro members
    rw [Ne, List.lookup_eq_none_iff]
    simp
  constructor
  · intro h
    refine ⟨String.ofList k, String.toList_ofList, ?_⟩
    cases object with
    | dict members =>
      unfold item
      rw [String.toList_ofList]
      exact (hitem members).mp h
    | _ => cases h
  · rintro ⟨name, rfl, h⟩
    cases object with
    | dict members => exact (hitem members).mpr h
    | _ => exact absurd rfl h

lemma isDict_of_item {object value : Object} {name : String} (h : object.item name = some value) :
    object.isDict = true := by
  cases object <;> first | rfl | cases h

end Object

/-! ### Schemas -/

/-- What a member of an object must be. -/
inductive ValueSchema where
  /-- One of some strings. -/
  | enum (texts : List (List Char))
  /-- A number from a minimum to a maximum. -/
  | range (minimum maximum : ℚ)
  /-- A string, of a maximal length or not. -/
  | text (maxLength : Option ℕ)

/-- An object is valid against a schema for members. -/
def ValueSchema.Valid : ValueSchema → Object → Prop
  | .enum texts, .str s => s ∈ texts
  | .range minimum maximum, .num n => n.between minimum maximum = true
  | .text maxLength, .str s => ∀ n ∈ maxLength, s.length ≤ n
  | _, _ => False

/-- A schema for an object: what its members must be, which there must be, and if there may be others. -/
structure Schema where
  properties : List (String × ValueSchema)
  required : List String
  additionalProperties : Bool

/-- An object is valid against a schema. -/
structure Schema.Valid (schema : Schema) (object : Object) : Prop where
  dict : object.isDict = true
  required : ∀ name ∈ schema.required, object.item name ≠ none
  properties : ∀ p ∈ schema.properties, ∀ value, object.item p.1 = some value → p.2.Valid value
  additional : schema.additionalProperties = false →
    ∀ name, object.item name ≠ none → ∃ p ∈ schema.properties, p.1 = name

/-- Against a schema that requires its properties and allows no others. -/
lemma Schema.valid_iff {schema : Schema} (hrequired : schema.required = schema.properties.map Prod.fst)
    (hadditional : schema.additionalProperties = false) {object : Object} :
    schema.Valid object ↔ object.isDict = true ∧
      ((∀ name, object.item name ≠ none → name ∈ schema.required) ∧
        ∀ name ∈ schema.required, object.item name ≠ none) ∧
      ∀ p ∈ schema.properties, p.2.Valid (object.field p.1) := by
  have hmem : ∀ name, name ∈ schema.required ↔ ∃ p ∈ schema.properties, p.1 = name := by
    intro name
    rw [hrequired, List.mem_map]
  constructor
  · intro h
    refine ⟨h.dict, ⟨fun name hname => ?_, h.required⟩, fun p hp => ?_⟩
    · exact (hmem name).mpr (h.additional hadditional name hname)
    · obtain ⟨value, hvalue⟩ :=
        Option.ne_none_iff_exists'.mp (h.required p.1 ((hmem p.1).mpr ⟨p, hp, rfl⟩))
      rw [Object.field_of_item hvalue]
      exact h.properties p hp value hvalue
  · rintro ⟨hdict, ⟨hothers, hall⟩, hvalid⟩
    refine ⟨hdict, hall, fun p hp value hvalue => ?_, fun _ name hname => ?_⟩
    · rw [← Object.field_of_item hvalue]
      exact hvalid p hp
    · exact (hmem name).mp (hothers name hname)

end CSecureBuild.PyLib.Objects
