import CSecureBuild.Harness.Triage
import CSecureBuild.PyLib.JsonSchema

/-!
`SCHEMA` as the JSON Schema document that the servers are given, keyword by keyword, against the check that
`schema_valid` makes by hand.
-/

namespace CSecureBuild.Harness.AnswerSchema

open CSecureBuild.PyLib.Objects CSecureBuild.PyLib.JsonSchema CSecureBuild.Harness.Triage

/-- `SCHEMA`, as it is sent. -/
def document : Document :=
  .mk (some .object) none none none none
    [("verdict", stringSchema (some (VERDICTS.map Object.str)) none), ("confidence", numberSchema 0 1),
      ("cwe", stringSchema none none), ("reason", stringSchema none (some 300))]
    ["verdict", "confidence", "cwe", "reason"] false

/-- The schema of a member in the document. -/
def ofValueSchema : ValueSchema → Document
  | .enum texts => stringSchema (some (texts.map Object.str)) none
  | .range minimum maximum => numberSchema minimum maximum
  | .text maxLength => stringSchema none maxLength

lemma validates_ofValueSchema {schema : ValueSchema} {value : Object} :
    Validates (ofValueSchema schema) value ↔ schema.Valid value := by
  cases schema with
  | enum texts =>
    rw [ofValueSchema, validates_string]
    cases value <;> simp [ValueSchema.Valid]
  | range minimum maximum =>
    rw [ofValueSchema, validates_number]
    cases value <;> simp [ValueSchema.Valid]
  | text maxLength =>
    rw [ofValueSchema, validates_string]
    cases value <;> simp [ValueSchema.Valid]

lemma validates_document {value : Object} : Validates document value ↔ SCHEMA.Valid value := by
  have hmembers : ∀ name schema, (name, schema) ∈ SCHEMA.properties.map (fun p => (p.1, ofValueSchema p.2)) ↔
      ∃ p ∈ SCHEMA.properties, p.1 = name ∧ ofValueSchema p.2 = schema := by
    simp [Prod.ext_iff]
  constructor
  · rintro ⟨htype, -, -, -, -, hproperties, hrequired, hadditional⟩
    have hdict := kindOf_eq_object.mp (htype _ rfl)
    refine ⟨hdict, fun name hname => hrequired name hname hdict, fun p hp member hmember => ?_,
      fun h name hname => ?_⟩
    · exact validates_ofValueSchema.mp
        (hproperties p.1 _ ((hmembers _ _).mpr ⟨p, hp, rfl, rfl⟩) member hmember)
    · obtain ⟨q, hq, rfl⟩ := hadditional rfl name hname
      obtain ⟨p, hp, hname, -⟩ := (hmembers q.1 q.2).mp hq
      exact ⟨p, hp, hname⟩
  · rintro ⟨hdict, hrequired, hproperties, hadditional⟩
    refine .all ?_ ?_ ?_ ?_ ?_ ?_ ?_ ?_
    · rintro _ ⟨⟩
      exact kindOf_eq_object.mpr hdict
    · exact fun values h => by cases h
    · exact fun bound h => by cases h
    · exact fun bound h => by cases h
    · exact fun bound h => by cases h
    · intro name schema hmem member hmember
      obtain ⟨p, hp, rfl, rfl⟩ := (hmembers name schema).mp hmem
      exact validates_ofValueSchema.mpr (hproperties p hp member hmember)
    · exact fun name hname _ => hrequired name hname
    · intro _ name hname
      obtain ⟨p, hp, rfl⟩ := hadditional rfl name hname
      exact ⟨_, (hmembers _ _).mpr ⟨p, hp, rfl, rfl⟩, rfl⟩

/-- **`schema_valid` decides `SCHEMA`**, as JSON Schema reads it. -/
theorem schemaValid_decides (value : Object) : schemaValid value = true ↔ Validates document value := by
  rw [schemaValid_iff, validates_document]

end CSecureBuild.Harness.AnswerSchema
