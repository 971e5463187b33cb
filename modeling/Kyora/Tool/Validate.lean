import Kyora.Framework.Checks
import Kyora.Tool.Schema

/-! # Schema validation

  `validate` checks a JSON value against the schema subset that the runtime
  enforces: `type`, `enum`, `required`, `properties`, `additionalProperties`
  and `items`, nested. What a value has to satisfy is stated on its own, and
  for a schema that `check_schema` accepts the two agree: `validate` refuses
  exactly the values that do not satisfy the schema, and never because of the
  schema itself.
-/

namespace Kyora

namespace Json

/-! ### Equality of values -/

/-- Numbers with a fraction are equal by value: of two texts only the two
    zeros name the same number. -/
def sameDecimal (a b : String) : Bool :=
  a == b || (a ∈ ["0.0", "-0.0"] && b ∈ ["0.0", "-0.0"])

mutual

/-- `==` on values. An integer never equals a number with a fraction. -/
def same : Json → Json → Bool
  | .null, .null => true
  | .bool a, .bool b => a == b
  | .integer a, .integer b => a == b
  | .decimal a, .decimal b => sameDecimal a b
  | .string a, .string b => a == b
  | .array as, .array bs => sameItems as bs
  | .object as, .object bs => sameMembers as bs
  | _, _ => false

def sameItems : List Json → List Json → Bool
  | [], [] => true
  | a :: as, b :: bs => same a b && sameItems as bs
  | _, _ => false

def sameMembers : List (String × Json) → List (String × Json) → Bool
  | [], [] => true
  | (key, a) :: as, (key', b) :: bs => key == key' && same a b && sameMembers as bs
  | _, _ => false

end

mutual

/-- The value with every zero written without a sign: two values are equal
    when they read the same this way. -/
def unsigned : Json → Json
  | .decimal text => .decimal (if text = "-0.0" then "0.0" else text)
  | .array items => .array (unsignedItems items)
  | .object members => .object (unsignedMembers members)
  | other => other

def unsignedItems : List Json → List Json
  | [] => []
  | item :: items => unsigned item :: unsignedItems items

def unsignedMembers : List (String × Json) → List (String × Json)
  | [] => []
  | (key, value) :: members => (key, unsigned value) :: unsignedMembers members

end

mutual

theorem same_iff : ∀ a b : Json, a.same b = true ↔ a.unsigned = b.unsigned
  | .array as, .array bs => by simpa [same, unsigned] using sameItems_iff as bs
  | .object as, .object bs => by simpa [same, unsigned] using sameMembers_iff as bs
  | .decimal a, .decimal b => by
    simp only [same, unsigned, sameDecimal]
    grind
  | .null, b | .bool _, b | .integer _, b | .string _, b => by cases b <;> simp [same, unsigned]
  | .decimal _, .null | .decimal _, .bool _ | .decimal _, .integer _ | .decimal _, .string _
  | .decimal _, .array _ | .decimal _, .object _ => by simp [same, unsigned]
  | .array _, .null | .array _, .bool _ | .array _, .integer _ | .array _, .string _
  | .array _, .decimal _ | .array _, .object _ => by simp [same, unsigned]
  | .object _, .null | .object _, .bool _ | .object _, .integer _ | .object _, .string _
  | .object _, .decimal _ | .object _, .array _ => by simp [same, unsigned]

theorem sameItems_iff : ∀ as bs : List Json,
    sameItems as bs = true ↔ unsignedItems as = unsignedItems bs
  | [], [] | [], _ :: _ | _ :: _, [] => by simp [sameItems, unsignedItems]
  | a :: as, b :: bs => by
    simp [sameItems, unsignedItems, same_iff a b, sameItems_iff as bs]

theorem sameMembers_iff : ∀ as bs : List (String × Json),
    sameMembers as bs = true ↔ unsignedMembers as = unsignedMembers bs
  | [], [] | [], _ :: _ | _ :: _, [] => by simp [sameMembers, unsignedMembers]
  | (key, a) :: as, (key', b) :: bs => by
    simp [sameMembers, unsignedMembers, same_iff a b, sameMembers_iff as bs, and_assoc]

end

/-- `value == false`. -/
def isFalse : Json → Bool
  | .bool b => !b
  | _ => false

end Json

namespace Tool

/-! ### The check -/

/-- Why `validate` refuses an input. -/
inductive Refusal where
  | unsupportedType (name : String)
  | invalidType (expected : Json)
  | notInEnum (values : Json)
  | invalidRequired
  | missingProperty (key : String)
  | unexpectedProperty (key : String)

def Refusal.text (print : Json → String) : Refusal → String
  | .unsupportedType name => "unsupported schema type: " ++ name
  | .invalidType expected => "invalid input type, expected " ++ print expected
  | .notInEnum values => "value must be one of " ++ print values
  | .invalidRequired => "invalid required schema"
  | .missingProperty key => "missing property: " ++ key
  | .unexpectedProperty key => "unexpected property: " ++ key

/-- The refusal blames the schema, not the input. -/
def Refusal.ofSchema : Refusal → Bool
  | .unsupportedType _ | .invalidRequired => true
  | _ => false

/-- Whether the input has the type of this name. `none`: no such type. -/
def isOfType (name : String) (input : Json) : Option Bool :=
  if name = "object" then some (input matches .object _)
  else if name = "array" then some (input matches .array _)
  else if name = "string" then some (input matches .string _)
  else if name = "integer" then some (input matches .integer _)
  else if name = "number" then some (input matches .integer _ | .decimal _)
  else if name = "boolean" then some (input matches .bool _)
  else if name = "null" then some (input matches .null)
  else none

def validateType (schema input : Json) : Except Refusal Unit :=
  match schema.index "type" with
  | .string name =>
    match isOfType name input with
    | none => .error (.unsupportedType name)
    | some true => .ok ()
    | some false => .error (.invalidType (schema.index "type"))
  | _ => .ok ()

def validateEnum (schema input : Json) : Except Refusal Unit :=
  match schema.get? "enum" with
  | some (.array values) =>
    if values.any (·.same input) then .ok () else .error (.notInEnum (schema.index "enum"))
  | _ => .ok ()

/-- One element of `required`. -/
def validateKey (members : List (String × Json)) : Json → Except Refusal Unit
  | .string key => if (members.lookup key).isSome then .ok () else .error (.missingProperty key)
  | _ => .error .invalidRequired

def validateRequired (schema : Json) (members : List (String × Json)) : Except Refusal Unit :=
  match schema.index "required" with
  | .array keys => keys.forM (validateKey members)
  | _ => .ok ()

/-- The schema of a property: `schema["properties"].get(key)`. -/
def property? (schema : Json) (key : String) : Option Json :=
  (schema.index "properties").get? key

/-- Validates a small JSON-schema subset: `type`, `enum`, `required`,
    `properties`, `additionalProperties` false and `items`, nested. Other
    keywords are ignored. -/
def validate (schema input : Json) : Except Refusal Unit :=
  (validateType schema input).bind fun _ =>
  (validateEnum schema input).bind fun _ =>
  match input with
  | .object members =>
    (validateRequired schema members).bind fun _ =>
    members.attach.forM fun member =>
      match property? schema member.1.1 with
      | some property => validate property member.1.2
      | none =>
        if (schema.index "additionalProperties").isFalse then
          .error (.unexpectedProperty member.1.1)
        else .ok ()
  | .array values =>
    match schema.get? "items" with
    | some items => values.attach.forM fun value => validate items value.1
    | none => .ok ()
  | _ => .ok ()
termination_by sizeOf input
decreasing_by
  · exact Json.sizeOf_of_mem member.2
  · have hmem := List.sizeOf_lt_of_mem value.2
    simp only [Json.array.sizeOf_spec]
    omega

/-! ### What a value has to satisfy -/

/-- The type names of a value. -/
def HasType (name : String) : Json → Prop
  | .object _ => name = "object"
  | .array _ => name = "array"
  | .string _ => name = "string"
  | .integer _ => name = "integer" ∨ name = "number"
  | .decimal _ => name = "number"
  | .bool _ => name = "boolean"
  | .null => name = "null"

/-- The enforced subset of JSON schema. Every keyword constrains the values it
    is about, whatever type the schema declares. -/
inductive Satisfies : Json → Json → Prop where
  | intro {schema input : Json}
      (htype : ∀ name, schema.get? "type" = some (.string name) → HasType name input)
      (henum : ∀ values, schema.get? "enum" = some (.array values) →
        ∃ value ∈ values, value.unsigned = input.unsigned)
      (hrequired : ∀ members names key, input = .object members →
        schema.get? "required" = some (.array names) → .string key ∈ names →
        ∃ value, (key, value) ∈ members)
      (hproperties : ∀ members key value property, input = .object members →
        (key, value) ∈ members → property? schema key = some property →
        Satisfies property value)
      (hadditional : ∀ members key value, input = .object members →
        schema.get? "additionalProperties" = some (.bool false) → (key, value) ∈ members →
        (property? schema key).isSome)
      (hitems : ∀ values items value, input = .array values →
        schema.get? "items" = some items → value ∈ values → Satisfies items value) :
      Satisfies schema input

/-! ### Schemas that can be enforced -/

/-- What `check_schema` establishes of a schema, one level deep. -/
structure Enforceable (print : Json → String) (schema : Json) : Prop where
  type : ∀ value, schema.get? "type" = some value → ∃ name ∈ types, value = .string name
  required : ∀ value, schema.get? "required" = some value →
    ∃ names, value = .array names ∧ ∀ name ∈ names, ∃ key, name = .string key
  properties : ∀ value, schema.get? "properties" = some value →
    ∃ members, value = .object members ∧
      ∀ member ∈ members, checkSchema print member.2 = .ok ()
  items : ∀ value, schema.get? "items" = some value → checkSchema print value = .ok ()

theorem ite_eq_ok {c : Prop} [Decidable c] {error : String}
    (h : (if c then Except.ok () else Except.error error) = Except.ok ()) : c := by
  by_cases hc : c
  · exact hc
  · rw [if_neg hc] at h
    cases h

theorem checkType_ok {print : Json → String} {value : Json}
    (h : checkType print (some value) = .ok ()) : ∃ name ∈ types, value = .string name := by
  cases value with
  | string name => exact ⟨name, ite_eq_ok h, rfl⟩
  | _ => cases h

theorem checkRequired_ok {value : Json} (h : checkRequired (some value) = .ok ()) :
    ∃ names, value = .array names ∧ ∀ name ∈ names, ∃ key, name = .string key := by
  cases value with
  | array names =>
    refine ⟨names, rfl, fun name hname => ?_⟩
    have hstring := List.all_eq_true.mp (ite_eq_ok h) name hname
    cases name with
    | string key => exact ⟨key, rfl⟩
    | _ => cases hstring
  | _ => cases h

/-- Inversion of `check_schema`. -/
theorem checkSchema_ok {print : Json → String} {schema : Json}
    (h : checkSchema print schema = .ok ()) : Enforceable print schema := by
  rw [checkSchema] at h
  obtain ⟨hkeywords, h⟩ := Checks.seq_eq_ok h
  obtain ⟨hproperties, hitems⟩ := Checks.seq_eq_ok h
  cases schema with
  | object members =>
    obtain ⟨htype, hkeywords⟩ := Checks.seq_eq_ok hkeywords
    obtain ⟨hrequired, -⟩ := Checks.seq_eq_ok hkeywords
    refine ⟨fun value hvalue => ?_, fun value hvalue => ?_, fun value hvalue => ?_,
      fun value hvalue => ?_⟩
    · rw [hvalue] at htype
      exact checkType_ok htype
    · rw [hvalue] at hrequired
      exact checkRequired_ok hrequired
    · split at hproperties
      next hnone => rw [hvalue] at hnone; cases hnone
      next inner hsome =>
        rw [hvalue] at hsome
        refine ⟨inner, Option.some.inj hsome, fun member hmember => ?_⟩
        exact Checks.forM_eq_ok.mp hproperties ⟨member, hmember⟩ (List.mem_attach _ _)
      next => cases hproperties
    · split at hitems
      next hnone => rw [hvalue] at hnone; cases hnone
      next inner hsome =>
        rw [hvalue] at hsome
        rw [Option.some.inj hsome]
        exact hitems
  | _ => cases hkeywords

/-! ### Exactness -/

/-- The check holds exactly of the inputs with the property, and never blames
    the schema. -/
structure Decides (result : Except Refusal Unit) (P : Prop) : Prop where
  ok_iff : result = .ok () ↔ P
  ofInput : ∀ refusal, result = .error refusal → refusal.ofSchema = false

namespace Decides

variable {P Q : Prop} {result : Except Refusal Unit}

theorem ok (h : P) : Decides (.ok ()) P :=
  ⟨⟨fun _ => h, fun _ => rfl⟩, fun _ hrefusal => by cases hrefusal⟩

theorem error {refusal : Refusal} (hrefusal : refusal.ofSchema = false) (h : ¬ P) :
    Decides (.error refusal) P := by
  refine ⟨⟨fun hok => ?_, fun hP => absurd hP h⟩, fun other hother => ?_⟩
  · cases hok
  · cases hother
    exact hrefusal

theorem iff (h : Decides result P) (hPQ : P ↔ Q) : Decides result Q :=
  ⟨h.ok_iff.trans hPQ, h.ofInput⟩

theorem ite {c : Prop} [Decidable c] {refusal : Refusal} (hc : c ↔ P)
    (hrefusal : refusal.ofSchema = false) :
    Decides (if c then .ok () else .error refusal) P := by
  by_cases h : c
  · rw [if_pos h]
    exact ok (hc.mp h)
  · rw [if_neg h]
    exact error hrefusal fun hP => h (hc.mpr hP)

theorem bind {f : Unit → Except Refusal Unit} (h : Decides result P)
    (hf : P → Decides (f ()) Q) : Decides (result.bind f) (P ∧ Q) := by
  cases result with
  | error refusal =>
    refine error (h.ofInput refusal rfl) fun hPQ => ?_
    have hok := h.ok_iff.mpr hPQ.1
    cases hok
  | ok u =>
    have hP : P := h.ok_iff.mp rfl
    exact (hf hP).iff ⟨fun hQ => ⟨hP, hQ⟩, fun hPQ => hPQ.2⟩

theorem bind_ok (h : Decides result P) : Decides (result.bind fun _ => .ok ()) P := by
  have hbind : Decides (result.bind fun _ => .ok ()) (P ∧ True) :=
    h.bind fun _ => ok trivial
  exact hbind.iff (iff_of_eq (and_true P))

/-- A loop decides that every element has the property. -/
theorem forM {α : Type} {f : α → Except Refusal Unit} {R : α → Prop} {xs : List α}
    (h : ∀ x ∈ xs, Decides (f x) (R x)) : Decides (xs.forM f) (∀ x ∈ xs, R x) := by
  induction xs with
  | nil => exact ok fun x hx => by cases hx
  | cons y xs ih =>
    have hy : Decides (f y) (R y) := h y List.mem_cons_self
    have hxs := ih fun x hx => h x (List.mem_cons_of_mem y hx)
    have hcons : Decides ((f y).bind fun _ => xs.forM f) (R y ∧ ∀ x ∈ xs, R x) :=
      hy.bind fun _ => hxs
    exact hcons.iff List.forall_mem_cons.symm

end Decides

theorem Json.index_eq (value : Json) (key : String) :
    value.index key = (value.get? key).getD .null := by
  cases value <;> rfl

theorem isOfType_spec {name : String} (hname : name ∈ types) (input : Json) :
    ∃ b, isOfType name input = some b ∧ (b = true ↔ HasType name input) := by
  simp only [types, List.mem_cons, List.not_mem_nil, or_false] at hname
  rcases hname with rfl | rfl | rfl | rfl | rfl | rfl | rfl
  all_goals
    refine ⟨_, rfl, ?_⟩
    cases input <;> simp [HasType]

theorem validateType_decides {print : Json → String} {schema : Json}
    (hschema : Enforceable print schema) (input : Json) :
    Decides (validateType schema input)
      (∀ name, schema.get? "type" = some (.string name) → HasType name input) := by
  rw [validateType, Json.index_eq]
  cases htype : schema.get? "type" with
  | none => exact .ok fun name hname => by cases hname
  | some value =>
    obtain ⟨name, hname, rfl⟩ := hschema.type value htype
    obtain ⟨b, hb, hiff⟩ := isOfType_spec hname input
    have hall : HasType name input ↔
        ∀ other, some (Json.string name) = some (.string other) → HasType other input := by
      constructor
      · intro h other hother
        cases hother
        exact h
      · intro h
        exact h name rfl
    simp only [Option.getD_some, hb]
    cases b with
    | true => exact .ok (hall.mp (hiff.mp rfl))
    | false => exact .error rfl fun h => absurd (hiff.mpr (hall.mpr h)) (by decide)

theorem validateEnum_decides (schema input : Json) :
    Decides (validateEnum schema input)
      (∀ values, schema.get? "enum" = some (.array values) →
        ∃ value ∈ values, value.unsigned = input.unsigned) := by
  rw [validateEnum]
  cases henum : schema.get? "enum" with
  | none => exact .ok fun values hvalues => by cases hvalues
  | some value =>
    cases value with
    | array values =>
      have hany : values.any (·.same input) = true ↔
          ∃ value ∈ values, value.unsigned = input.unsigned := by
        rw [List.any_eq_true]
        exact exists_congr fun value => and_congr_right fun _ => Json.same_iff value input
      refine Decides.ite (hany.trans ⟨fun h others hothers => ?_, fun h => h values rfl⟩) rfl
      cases hothers
      exact h
    | _ => exact .ok fun values hvalues => by cases hvalues

theorem lookup_isSome {members : List (String × Json)} {key : String} :
    (members.lookup key).isSome = true ↔ ∃ value, (key, value) ∈ members := by
  rw [List.lookup_isSome_iff]
  simp only [beq_iff_eq, Prod.exists]
  grind

theorem validateKey_decides (members : List (String × Json)) (key : String) :
    Decides (validateKey members (.string key)) (∃ value, (key, value) ∈ members) := by
  rw [validateKey]
  exact .ite lookup_isSome rfl

theorem validateRequired_decides {print : Json → String} {schema : Json}
    (hschema : Enforceable print schema) (members : List (String × Json)) :
    Decides (validateRequired schema members)
      (∀ keys key, schema.get? "required" = some (.array keys) → .string key ∈ keys →
        ∃ value, (key, value) ∈ members) := by
  rw [validateRequired, Json.index_eq]
  cases hrequired : schema.get? "required" with
  | none => exact .ok fun keys key hkeys => by cases hkeys
  | some value =>
    obtain ⟨keys, rfl, hstrings⟩ := hschema.required value hrequired
    have hloop : Decides (keys.forM (validateKey members))
        (∀ name ∈ keys, ∀ key, name = .string key → ∃ value, (key, value) ∈ members) := by
      refine .forM fun name hname => ?_
      obtain ⟨key, rfl⟩ := hstrings name hname
      refine (validateKey_decides members key).iff ⟨fun h other hother => ?_, fun h => h key rfl⟩
      cases hother
      exact h
    refine hloop.iff ⟨fun h others key hothers hkey => ?_, fun h name hname key hkey => ?_⟩
    · cases hothers
      exact h (.string key) hkey key rfl
    · subst hkey
      exact h keys key rfl hname

/-- A schema of a property of an accepted schema is accepted. -/
theorem Enforceable.property {print : Json → String} {schema property : Json} {key : String}
    (hschema : Enforceable print schema) (h : property? schema key = some property) :
    checkSchema print property = .ok () := by
  rw [property?, Json.index_eq] at h
  cases hproperties : schema.get? "properties" with
  | none => rw [hproperties] at h; cases h
  | some value =>
    obtain ⟨members, rfl, haccepted⟩ := hschema.properties value hproperties
    rw [hproperties] at h
    have hlookup : members.lookup key = some property := h
    obtain ⟨before, after, rfl, -⟩ := List.lookup_eq_some_iff.mp hlookup
    exact haccepted (key, property) (by simp)

theorem isFalse_iff (schema : Json) (key : String) :
    (schema.index key).isFalse = true ↔ schema.get? key = some (.bool false) := by
  rw [Json.index_eq]
  cases hget : schema.get? key with
  | none => simp [Json.isFalse]
  | some value => cases value <;> simp [Json.isFalse]

/-- What the schema demands of one member of an object. -/
def MemberSatisfies (schema : Json) (member : String × Json) : Prop :=
  (∀ property, property? schema member.1 = some property → Satisfies property member.2) ∧
    (schema.get? "additionalProperties" = some (.bool false) →
      (property? schema member.1).isSome)

theorem satisfies_object {schema : Json} {members : List (String × Json)} :
    Satisfies schema (.object members) ↔
      (∀ name, schema.get? "type" = some (.string name) → HasType name (.object members)) ∧
      (∀ values, schema.get? "enum" = some (.array values) →
        ∃ value ∈ values, value.unsigned = (Json.object members).unsigned) ∧
      (∀ keys key, schema.get? "required" = some (.array keys) → .string key ∈ keys →
        ∃ value, (key, value) ∈ members) ∧
      ∀ member ∈ members, MemberSatisfies schema member := by
  constructor
  · rintro ⟨htype, henum, hrequired, hproperties, hadditional, -⟩
    refine ⟨htype, henum, fun keys key => hrequired members keys key rfl,
      fun member hmember => ⟨?_, ?_⟩⟩
    · exact fun property => hproperties members member.1 member.2 property rfl hmember
    · exact fun hfalse => hadditional members member.1 member.2 rfl hfalse hmember
  · rintro ⟨htype, henum, hrequired, hmembers⟩
    refine ⟨htype, henum, ?_, ?_, ?_, ?_⟩
    · intro others names key hothers
      cases hothers
      exact hrequired names key
    · intro others key value property hothers hmember
      cases hothers
      exact (hmembers (key, value) hmember).1 property
    · intro others key value hothers hfalse hmember
      cases hothers
      exact (hmembers (key, value) hmember).2 hfalse
    · intro values items value hvalues
      cases hvalues

theorem satisfies_array {schema : Json} {values : List Json} :
    Satisfies schema (.array values) ↔
      (∀ name, schema.get? "type" = some (.string name) → HasType name (.array values)) ∧
      (∀ others, schema.get? "enum" = some (.array others) →
        ∃ value ∈ others, value.unsigned = (Json.array values).unsigned) ∧
      ∀ items, schema.get? "items" = some items → ∀ value ∈ values, Satisfies items value := by
  constructor
  · rintro ⟨htype, henum, -, -, -, hitems⟩
    exact ⟨htype, henum, fun items h value hvalue => hitems values items value rfl h hvalue⟩
  · rintro ⟨htype, henum, hitems⟩
    refine ⟨htype, henum, ?_, ?_, ?_, ?_⟩
    · intro members names key hmembers
      cases hmembers
    · intro members key value property hmembers
      cases hmembers
    · intro members key value hmembers
      cases hmembers
    · intro others items value hothers h hvalue
      cases hothers
      exact hitems items h value hvalue

theorem satisfies_scalar {schema input : Json} (hobject : ∀ members, input ≠ .object members)
    (harray : ∀ values, input ≠ .array values) :
    Satisfies schema input ↔
      (∀ name, schema.get? "type" = some (.string name) → HasType name input) ∧
      ∀ values, schema.get? "enum" = some (.array values) →
        ∃ value ∈ values, value.unsigned = input.unsigned := by
  constructor
  · rintro ⟨htype, henum, -⟩
    exact ⟨htype, henum⟩
  · rintro ⟨htype, henum⟩
    exact ⟨htype, henum, fun members _ _ h => absurd h (hobject members),
      fun members _ _ _ h => absurd h (hobject members),
      fun members _ _ h => absurd h (hobject members),
      fun values _ _ h => absurd h (harray values)⟩

/-- Of every schema that `check_schema` accepts, at any depth. -/
theorem validate_decides (print : Json → String) (schema input : Json)
    (haccepted : checkSchema print schema = .ok ()) :
    Decides (validate schema input) (Satisfies schema input) := by
  -- The schema is followed into the parts of the input, which shrink.
  induction hsize : sizeOf input using Nat.strongRecOn generalizing schema input with
  | _ size ih =>
  subst hsize
  have hschema := checkSchema_ok haccepted
  have htype := validateType_decides hschema input
  have henum := validateEnum_decides schema input
  cases input with
  | object members =>
    rw [validate, satisfies_object]
    refine htype.bind fun _ => henum.bind fun _ =>
      (validateRequired_decides hschema members).bind fun _ => ?_
    have hmember : ∀ member ∈ members.attach,
        Decides
          (match property? schema member.1.1 with
          | some property => validate property member.1.2
          | none =>
            if (schema.index "additionalProperties").isFalse then
              .error (.unexpectedProperty member.1.1)
            else .ok ())
          (MemberSatisfies schema member.1) := by
      intro member _
      rw [MemberSatisfies]
      cases hproperty : property? schema member.1.1 with
      | some property =>
        have hinner := ih _ (Json.sizeOf_of_mem member.2) property member.1.2
          (hschema.property hproperty) rfl
        refine hinner.iff ⟨fun h => ⟨fun other hother => ?_, fun _ => rfl⟩, fun h => h.1 _ rfl⟩
        cases hother
        exact h
      | none =>
        by_cases hfalse : (schema.index "additionalProperties").isFalse = true
        · simp only [hfalse, if_true]
          exact .error rfl fun h => absurd (h.2 ((isFalse_iff _ _).mp hfalse)) (by decide)
        · simp only [hfalse]
          refine .ok ⟨fun property h => ?_, fun h => absurd ((isFalse_iff _ _).mpr h) hfalse⟩
          cases h
    refine (Decides.forM hmember).iff ⟨fun h member hin => ?_, fun h member _ => ?_⟩
    · exact h ⟨member, hin⟩ (List.mem_attach members _)
    · exact h member.1 member.2
  | array values =>
    rw [validate, satisfies_array]
    refine htype.bind fun _ => henum.bind fun _ => ?_
    cases hitems : schema.get? "items" with
    | none => exact .ok fun items h => by cases h
    | some items =>
      have hvalue : ∀ value ∈ values.attach,
          Decides (validate items value.1) (Satisfies items value.1) := by
        intro value _
        have hsize := List.sizeOf_lt_of_mem value.2
        refine ih _ ?_ items value.1 (hschema.items items hitems) rfl
        simp only [Json.array.sizeOf_spec]
        omega
      refine (Decides.forM hvalue).iff ⟨fun h other hother value hin => ?_, fun h value _ => ?_⟩
      · cases hother
        exact h ⟨value, hin⟩ (List.mem_attach values _)
      · exact h items rfl value.1 value.2
  | _ =>
    rw [validate, satisfies_scalar (fun _ h => by cases h) (fun _ h => by cases h)]
    · exact htype.bind fun _ => henum.bind_ok
    all_goals
      intro _ h
      cases h

end Tool

end Kyora
