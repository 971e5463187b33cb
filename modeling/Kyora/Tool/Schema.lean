import Kyora.Protocol

/-! # Schema checking

  `check_schema` says whether `validate` can enforce a JSON schema, at every
  nesting depth.
-/

namespace Kyora

/-- `value[key]`: `null` for a missing member. -/
def Json.index (value : Json) (key : String) : Json :=
  match value with
  | .object members => (members.lookup key).getD .null
  | _ => .null

/-- `value.get(key)`. -/
def Json.get? (value : Json) (key : String) : Option Json :=
  match value with
  | .object members => members.lookup key
  | _ => none

theorem Json.sizeOf_of_mem {members : List (String × Json)} {x : String × Json}
    (h : x ∈ members) : sizeOf x.2 < sizeOf (Json.object members) := by
  have hmem := List.sizeOf_lt_of_mem h
  obtain ⟨key, value⟩ := x
  simp only [Prod.mk.sizeOf_spec, Json.object.sizeOf_spec] at hmem ⊢
  omega

theorem Json.sizeOf_get? {value inner : Json} {key : String} (h : value.get? key = some inner) :
    sizeOf inner < sizeOf value := by
  cases value with
  | object members =>
    have hmem : (key, inner) ∈ members := by
      have hlookup : members.lookup key = some inner := h
      rw [List.lookup_eq_some_iff] at hlookup
      obtain ⟨before, after, rfl, -⟩ := hlookup
      simp
    exact sizeOf_of_mem hmem
  | _ => cases h

namespace Tool

/-- Schema type names `validate` understands. -/
def types : List String :=
  ["object", "array", "string", "integer", "number", "boolean", "null"]

/-- The check of a schema's `type`. -/
def checkType (print : Json → String) : Option Json → Except String Unit
  | none => .ok ()
  | some (.string name) =>
    if name ∈ types then .ok ()
    else .error ("unsupported schema type: " ++ print (.string name))
  | some other => .error ("unsupported schema type: " ++ print other)

/-- The check of a schema's `required`. -/
def checkRequired : Option Json → Except String Unit
  | none => .ok ()
  | some (.array names) =>
    if names.all fun | .string _ => true | _ => false then .ok ()
    else .error "required must list property names"
  | some _ => .error "required must list property names"

/-- The check of a schema's `enum`. -/
def checkEnum : Option Json → Except String Unit
  | none | some (.array _) => .ok ()
  | some _ => .error "enum must be an array"

/-- What is checked of a schema before its nested schemas. -/
def checkKeywords (print : Json → String) (schema : Json) : Except String Unit :=
  match schema with
  | .object _ => do
    checkType print (schema.get? "type")
    checkRequired (schema.get? "required")
    checkEnum (schema.get? "enum")
  | _ => .error "schema must be an object"

/-- Checks that `validate` can enforce a schema. -/
def checkSchema (print : Json → String) (schema : Json) : Except String Unit :=
  (checkKeywords print schema).bind fun _ =>
    Except.bind
      (match _hproperties : schema.get? "properties" with
      | none => .ok ()
      | some (.object properties) =>
        properties.attach.forM fun property => checkSchema print property.1.2
      | some _ => .error "properties must be an object") fun _ =>
        match _hitems : schema.get? "items" with
        | none => .ok ()
        | some items => checkSchema print items
termination_by sizeOf schema
decreasing_by
  · have hinner := Json.sizeOf_get? _hproperties
    have hmem := Json.sizeOf_of_mem property.2
    omega
  · exact Json.sizeOf_get? _hitems

end Tool

end Kyora
