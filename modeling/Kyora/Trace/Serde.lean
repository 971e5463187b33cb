import Kyora.Framework.Objects
import Kyora.Protocol

/-! # Derived encodings

  The pieces that the derived encoders and decoders of the source are made of:
  named fields, optional and defaulted ones, enums by name, lists. Every piece
  has the lemma that its decoder reads back what its encoder wrote.
-/

namespace Kyora

/-- How a decoder reaches a value. Flattened fields and the fields of internally
    tagged enums are collected in a generic buffer first. -/
inductive Access where
  | direct | buffered
  deriving DecidableEq, Repr

/-- The named fields of a value, in declaration order. -/
abbrev Fields : Type := Objects.Fields String Json

/-- The members of an object, as a decoder asks for them. -/
abbrev Members : Type := String → Option Json

namespace Json

/-! ### Encoders -/

/-- The object of some fields, with its members in key order. -/
def ofFields (fields : Fields) : Json :=
  .object (Objects.Fields.members (fun a b => decide (a ≤ b)) fields)

def natural (n : Nat) : Json := .integer n

def list {α : Type} (print : α → Json) (xs : List α) : Json := .array (xs.map print)

/-- An absent value is `null`. -/
def option {α : Type} (print : α → Json) : Option α → Json
  | none => .null
  | some x => print x

/-! ### Decoders -/

def natural? : Json → Option Nat
  | .integer (.ofNat n) => some n
  | _ => none

def text? : Json → Option String
  | .string s => some s
  | _ => none

def flag? : Json → Option Bool
  | .bool b => some b
  | _ => none

def list? {α : Type} (read : Json → Option α) : Json → Option (List α)
  | .array items => items.mapM read
  | _ => none

/-- A unit variant, by its spelling. -/
def name? {α : Type} (all : List α) (asStr : α → String) : Json → Option α
  | .string s => all.find? fun x => asStr x == s
  | _ => none

def object? {α : Type} (read : Members → Option α) : Json → Option α
  | .object members => read fun key => members.lookup key
  | _ => none

end Json

namespace Members

variable {α : Type}

/-- A field that has to be there. -/
def required (members : Members) (key : String) (read : Json → Option α) : Option α :=
  (members key).bind read

/-- An `Option` field: both an absent and a `null` member are `None`. -/
def optional (members : Members) (key : String) (read : Json → Option α) :
    Option (Option α) :=
  match members key with
  | none | some .null => some none
  | some value => (read value).map some

/-- A field with a default for an absent member. -/
def defaulted (members : Members) (key : String) (value : α) (read : Json → Option α) :
    Option α :=
  match members key with
  | none => some value
  | some json => read json

/-- The members that are left for a flattened field. -/
def without (members : Members) (own : List String) : Members := fun key =>
  if key ∈ own then none else members key

end Members

/-! ### Reading back -/

namespace Json

@[simp] theorem natural?_natural (n : Nat) : natural? (natural n) = some n := rfl

@[simp] theorem text?_string (s : String) : text? (.string s) = some s := rfl

@[simp] theorem flag?_bool (b : Bool) : flag? (.bool b) = some b := rfl

theorem natural_ne_null (n : Nat) : natural n ≠ .null := nofun

theorem ofFields_ne_null (fields : Fields) : ofFields fields ≠ .null := nofun

/-- A list is read back if each of its items is. -/
theorem list?_list {α : Type} {print : α → Json} {read : Json → Option α} (xs : List α)
    (h : ∀ x ∈ xs, read (print x) = some x) : list? read (list print xs) = some xs := by
  unfold list? list
  induction xs with
  | nil => rfl
  | cons x xs ih =>
    have hrest := ih fun y hy => h y (List.mem_cons_of_mem x hy)
    simp only [List.map_cons, List.mapM_cons, h x List.mem_cons_self, hrest]
    rfl

/-- An object is read as what its fields say. -/
theorem object?_ofFields {α : Type} (read : Members → Option α) {fields : Fields}
    (hkeys : (fields.map Prod.fst).Nodup) :
    object? read (ofFields fields) = read fields.get := by
  have hlookup : (fun key => (Objects.Fields.members (fun a b => decide (a ≤ b)) fields).lookup
      key) = fields.get := funext (Objects.Fields.lookup_members _ hkeys)
  exact congrArg read hlookup

end Json

namespace Members

variable {α : Type} {members : Members} {key : String} {read : Json → Option α}

/-- An optional field is read back if its value is, unless that looks absent. -/
theorem optional_of (print : α → Json) {x : Option α}
    (h : members key = some (Json.option print x))
    (hx : ∀ y ∈ x, read (print y) = some y ∧ print y ≠ .null) :
    members.optional key read = some x := by
  cases x with
  | none => simp [optional, h, Json.option]
  | some y =>
    obtain ⟨hread, hnull⟩ := hx y rfl
    unfold optional
    rw [h]
    simp only [Json.option]
    rw [hread, Option.map_some]

/-- So is one that is skipped when absent. -/
theorem optional_of_skipped (print : α → Json) {x : Option α}
    (h : members key = x.map print)
    (hx : ∀ y ∈ x, read (print y) = some y ∧ print y ≠ .null) :
    members.optional key read = some x := by
  cases x with
  | none => simp [optional, h]
  | some y => exact optional_of print h hx

end Members

end Kyora
