import Kyora.Conversation.Contract
import Kyora.Tree.Steps
import Kyora.Tool.Validate

/-! # Structured results

  A child spawned with an output schema finishes through `submit_result`. The
  tool validates the submitted value and commits its printed form, which the
  runtime reads back and validates again before it takes the answer. Since the
  schema was checked at spawn, neither of the two blames it.
-/

namespace Kyora.Tool

open Conversation (Config Turn ToolOutput Answer)

/-- The outcome of a check with its error as text. -/
def texts (print : Json → String) : Except Refusal Unit → Except String Unit
  | .ok () => .ok ()
  | .error refusal => .error (refusal.text print)

/-- `{"type": "object"}`. -/
def objectSchema : Json := .object [("type", .string "object")]

/-- The agent with this output schema: its toolset gets `submit_result`, of
    which the toolset only requires an object, and a final answer has to match
    the schema. -/
def withOutput (cfg : Config) (schema : Json) : Config :=
  { cfg with
    tools.get := fun name =>
      if name = Tree.submitResult then
        some ⟨fun input => texts cfg.print (validate objectSchema input), true⟩
      else cfg.tools.get name
    output := some fun value => texts cfg.print (validate schema value) }

/-- What a turn makes of a submission that it executes: the result of the call,
    and the final answer if the turn takes one. The input of an invalid call is
    answered without running the tool. -/
def submit (cfg : Config) (schema : Json) (t : Turn) (input : Json) :
    ToolOutput × Option Answer :=
  match (withOutput cfg schema).tools.validate Tree.submitResult input with
  | .error _ =>
    (.error (cfg.print (.object [("INVALID_JSON", .string (cfg.print input))])), none)
  | .ok () =>
    Conversation.commit (withOutput cfg schema) t none
      (Conversation.submitResult (withOutput cfg schema)
        (fun value => texts cfg.print (validate schema value)) input)

/-! ### What is refused -/

theorem texts_eq_ok {print : Json → String} {result : Except Refusal Unit} :
    texts print result = .ok () ↔ result = .ok () := by
  cases result with
  | ok u => simp [texts]
  | error refusal => simp [texts]

/-- Every object satisfies the schema that only asks for one. -/
theorem satisfies_objectSchema (input : Json) :
    Satisfies objectSchema input ↔ ∃ members, input = .object members := by
  constructor
  · rintro ⟨htype, -⟩
    have hname : HasType "object" input := htype "object" rfl
    cases input with
    | object members => exact ⟨members, rfl⟩
    | _ => simp [HasType] at hname
  · rintro ⟨members, rfl⟩
    rw [satisfies_object]
    refine ⟨fun name hname => ?_, fun values h => ?_, fun keys key h => ?_,
      fun member _ => ⟨fun property h => ?_, fun h => ?_⟩⟩
    · cases hname
      rfl
    all_goals cases h

theorem checkSchema_objectSchema (print : Json → String) :
    checkSchema print objectSchema = .ok () := by
  rw [checkSchema]
  rfl

/-- The toolset lets every object through. -/
theorem toolset_submit (cfg : Config) (schema input : Json) :
    (withOutput cfg schema).tools.validate Tree.submitResult input = .ok () ↔
      ∃ members, input = .object members := by
  have hget : (withOutput cfg schema).tools.validate Tree.submitResult input =
      texts cfg.print (validate objectSchema input) := by
    simp [withOutput, Conversation.Toolset.validate]
  rw [hget, texts_eq_ok, (validate_decides cfg.print objectSchema input
    (checkSchema_objectSchema cfg.print)).ok_iff, satisfies_objectSchema]

/-- A schema accepted at spawn is one that `check_schema` accepts, for objects. -/
theorem checkOutput_ok {cfg : Tree.Config} {schema : Json}
    (h : Tree.checkOutput cfg (some schema) = .ok ()) :
    schema.get? "type" = some (.string "object") ∧ checkSchema cfg.print schema = .ok () := by
  rw [Tree.checkOutput] at h
  split at h
  next htype =>
    split at h
    next hok =>
      refine ⟨?_, hok⟩
      rw [Json.index_eq] at htype
      cases hget : schema.get? "type" with
      | none => rw [hget] at htype; cases htype
      | some value => rw [hget] at htype; rw [← htype]; rfl
    next => cases h
  next => cases h

/-- `accept` of the printed form of a value. -/
theorem accept_printed (cfg : Config) (schema input : Json) :
    Conversation.accept (withOutput cfg schema) (.value (cfg.print input)) =
        .ok (.value (cfg.print input)) ↔
      (∃ copy, cfg.parse (cfg.print input) = .ok copy ∧ validate schema copy = .ok ()) ∧
        (cfg.print input).length ≤ cfg.limits.messageChars := by
  simp only [Conversation.accept, withOutput]
  cases hparse : cfg.parse (cfg.print input) with
  | error error => simp
  | ok copy =>
    cases hvalid : validate schema copy with
    | error refusal => simp [hvalid, texts]
    | ok u =>
      simp [hvalid, texts]

/-- The three ways of a call: a mismatch, a result that is too long, a committed
    answer. -/
theorem submitResult_cases (cfg : Config) (schema input : Json) :
    let result := Conversation.submitResult (withOutput cfg schema)
      (fun value => texts cfg.print (validate schema value)) input
    (∃ refusal, validate schema input = .error refusal ∧
      result = .error ("result does not match the output schema: " ++ refusal.text cfg.print)) ∨
    (validate schema input = .ok () ∧ cfg.limits.messageChars < (cfg.print input).length ∧
      result = .error ("result exceeds " ++ toString cfg.limits.messageChars ++
        " characters; submit a shorter one")) ∨
    (validate schema input = .ok () ∧ (cfg.print input).length ≤ cfg.limits.messageChars ∧
      result = ⟨[.text "result submitted"], false, some (.value (cfg.print input))⟩) := by
  cases hvalid : validate schema input with
  | error refusal => exact .inl ⟨refusal, rfl, by simp [Conversation.submitResult, hvalid, texts]⟩
  | ok u =>
    by_cases hlong : cfg.limits.messageChars < (cfg.print input).length
    · refine .inr (.inl ⟨rfl, hlong, ?_⟩)
      simp [Conversation.submitResult, hvalid, texts, withOutput, hlong]
    · refine .inr (.inr ⟨rfl, Nat.le_of_not_lt hlong, ?_⟩)
      simp [Conversation.submitResult, hvalid, texts, withOutput, hlong]

/-- What is not an object is answered without running the tool. -/
theorem submit_invalid {cfg : Config} {schema input : Json} {t : Turn}
    (h : ∀ members, input ≠ .object members) :
    submit cfg schema t input =
      (.error (cfg.print (.object [("INVALID_JSON", .string (cfg.print input))])), none) := by
  rw [submit]
  cases hcheck : (withOutput cfg schema).tools.validate Tree.submitResult input with
  | error error => rfl
  | ok u =>
    obtain ⟨members, hobject⟩ := (toolset_submit cfg schema input).mp hcheck
    exact absurd hobject (h members)

theorem submit_object {cfg : Config} {schema : Json} {t : Turn} (members : List (String × Json)) :
    submit cfg schema t (.object members) =
      Conversation.commit (withOutput cfg schema) t none
        (Conversation.submitResult (withOutput cfg schema)
          (fun value => texts cfg.print (validate schema value)) (.object members)) := by
  rw [submit, (toolset_submit cfg schema (.object members)).mpr ⟨members, rfl⟩]

theorem commit_none {cfg : Config} {t : Turn} {result : ToolOutput}
    (hanswer : t.finalAnswer = none) (hresult : result.finalAnswer = none) :
    Conversation.commit cfg t none result = (result, none) := by
  simp [Conversation.commit, hanswer, hresult]

theorem commit_some {cfg : Config} {t : Turn} {result : ToolOutput} {answer : Answer}
    (hanswer : t.finalAnswer = none) (hresult : result.finalAnswer = some answer) :
    (Conversation.commit cfg t none result).2 = some answer ↔
      Conversation.accept cfg answer = .ok answer := by
  simp only [Conversation.commit, hanswer, hresult]
  cases haccept : Conversation.accept cfg answer with
  | ok accepted => simp
  | error reason => simp

/-- The turn of a single call. -/
def submitTurn : Turn := ⟨⟨.assistant, []⟩, .toolUse, [], [], [], none⟩

/-- An agent whose only JSON text is that of the given value. -/
def submitConfig (text : String) (value : Json) (messageChars : Nat) : Config :=
  { Conversation.contractConfig with
    limits.messageChars := messageChars
    print := fun _ => text
    parse := fun _ => .ok value }

def textsSchema : Json :=
  .object [("items", .object [("type", .string "string")]), ("type", .string "array")]

/-- An object with a list of texts. -/
def datesSchema : Json :=
  .object [("properties", .object [("dates", textsSchema)]),
    ("required", .array [.string "dates"]), ("type", .string "object")]

def datesInput : Json := .object [("dates", .array [.string "May 1"])]

def datesText : String := "\x7b\"dates\":[\"May 1\"]\x7d"

theorem checkSchema_dates : checkSchema Tree.demo.print datesSchema = .ok () := by
  have htext : checkSchema Tree.demo.print (.object [("type", .string "string")]) = .ok () := by
    rw [checkSchema]
    rfl
  have htexts : checkSchema Tree.demo.print textsSchema = .ok () := by
    rw [checkSchema]
    exact htext
  rw [checkSchema]
  show ((checkSchema Tree.demo.print textsSchema).bind fun _ => .ok ()).bind _ = .ok ()
  rw [htexts]
  rfl

theorem satisfies_dates : Satisfies datesSchema datesInput := by
  rw [← (validate_decides Tree.demo.print _ _ checkSchema_dates).ok_iff]
  simp [datesSchema, textsSchema, datesInput, validate, validateType, validateEnum,
    validateRequired, validateKey, property?, isOfType, Json.get?, Json.index, List.lookup_cons,
    Except.bind]

end Kyora.Tool
