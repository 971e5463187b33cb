import Kyora.Anthropic.Mapper
import Kyora.Framework.Checks
import Kyora.Framework.Errors
import Kyora.Sse.Framing

/-! # What a response can fail with

  The parser and the mapper of a response stream fail with texts of their own, and
  pass on the two texts of an `error` event, without the key.
-/

namespace Kyora.Anthropic

open Errors (Only only_ok only_error)
open Sse (Event)

/-! ### Errors of the mapper -/

/-- What `malformed` names. -/
def malformedFields : List String :=
  ["index", "type", "id", "name", "model", "text", "thinking", "signature", "partial_json",
    "message", "usage", "iterations", "stop_reason", "fallback model",
    "duplicate server tool index", "server tool input", "open server tool block"]

/-- Errors that the events of a server lead to. -/
inductive FromEvents (key : String) : ProviderError → Prop where
  | utf8 : FromEvents key (.protocol "invalid SSE UTF-8")
  | json : FromEvents key (.protocol "invalid SSE JSON")
  | malformed (field : String) (h : field ∈ malformedFields) : FromEvents key (malformed field)
  | stream (kind message : String) :
      FromEvents key (.stream (redact kind key) (redact message key))

section

variable {fromStr : String → Option Json} {key : String}

theorem string_only (value : Json) (field : String) (h : field ∈ malformedFields) :
    Only (FromEvents key) (string value field) := by
  unfold string
  split
  · exact only_ok _
  · exact only_error (.malformed field h)

theorem index_only (value : Json) : Only (FromEvents key) (index value) := by
  unfold index
  split
  · exact only_ok _
  · exact only_error (.malformed _ (by decide))

theorem counters_only (value : Json) : Only (FromEvents key) (counters value) := by
  unfold counters
  split
  · exact only_ok _
  split
  · exact only_ok _
  · exact only_error (.malformed _ (by decide))

theorem iterations_only (value : Json) : Only (FromEvents key) (iterations value) := by
  unfold iterations
  split
  · exact only_ok _
  · exact only_ok _
  split
  · exact only_ok _
  · exact only_error (.malformed _ (by decide))

theorem startOf_only (kind : String) (raw : Json) : Only (FromEvents key) (startOf kind raw) := by
  unfold startOf
  split
  · exact only_ok _
  · exact only_ok _
  · exact (string_only raw "id" (by decide)).bind fun _ _ => (string_only raw "name" (by decide)).bind fun _ _ => only_ok _
  · exact only_ok _

theorem deltaOf_only (index : Nat) (kind : String) (delta : Json) :
    Only (FromEvents key) (deltaOf index kind delta) := by
  unfold deltaOf
  split
  · exact (string_only delta "text" (by decide)).map _
  · exact (string_only delta "thinking" (by decide)).map _
  · exact (string_only delta "signature" (by decide)).map _
  · exact (string_only delta "partial_json" (by decide)).map _
  · exact only_ok _

theorem stopReasonOf_only (reason : Json) : Only (FromEvents key) (stopReasonOf reason) := by
  unfold stopReasonOf
  split
  · exact only_ok _
  split
  · exact only_ok _
  · exact only_error (.malformed _ (by decide))

theorem serve_only (m : Mapper) (serving : Option UsageIteration) :
    Only (FromEvents key) (m.serve serving) := by
  unfold Mapper.serve
  split
  · exact only_ok _
  split
  · exact only_error (.malformed _ (by decide))
  · exact only_ok _

theorem onUsage_only (m : Mapper) (mapped : StreamEvent) (usage : Json) :
    Only (FromEvents key) (m.onUsage mapped usage) := by
  refine (counters_only usage).bind fun latest _ => (iterations_only usage).bind fun found _ => ?_
  cases found with
  | none => exact only_ok _
  | some found => exact (serve_only m _).bind fun _ _ => only_ok _

theorem messageStart_only (m : Mapper) (value : Json) :
    Only (FromEvents key) (m.messageStart value) :=
  (string_only _ _ (by decide)).bind fun _ _ => (counters_only _).bind fun _ _ => onUsage_only _ _ _

theorem contentBlockStart_only (m : Mapper) (value : Json) :
    Only (FromEvents key) (m.contentBlockStart value) := by
  refine (string_only _ _ (by decide)).bind fun kind _ => ?_
  split
  · refine (index_only _).bind fun found _ => ?_
    split
    · exact only_error (.malformed _ (by decide))
    · exact only_ok _
  · exact (startOf_only _ _).bind fun _ _ => (index_only _).bind fun _ _ => only_ok _

theorem contentBlockDelta_only (m : Mapper) (value : Json) :
    Only (FromEvents key) (m.contentBlockDelta value) := by
  refine (index_only _).bind fun found _ => ?_
  split
  · refine (string_only _ _ (by decide)).bind fun kind _ => ?_
    split
    · exact (string_only _ _ (by decide)).bind fun _ _ => only_ok _
    · exact only_ok _
  · exact (string_only _ _ (by decide)).bind fun _ _ => (deltaOf_only _ _ _).bind fun _ _ => only_ok _

theorem completed_only (raw : Json) (partialJson : String) :
    Only (FromEvents key) (completed fromStr raw partialJson) := by
  unfold completed
  split
  · exact only_ok _
  split
  · exact only_ok _
  · exact only_error (.malformed _ (by decide))

theorem contentBlockStop_only (m : Mapper) (value : Json) :
    Only (FromEvents key) (m.contentBlockStop fromStr value) := by
  refine (index_only _).bind fun found _ => ?_
  split
  · exact (completed_only _ _).bind fun _ _ => only_ok _
  · exact only_ok _

theorem messageDelta_only (m : Mapper) (value : Json) :
    Only (FromEvents key) (m.messageDelta value) :=
  (stopReasonOf_only _).bind fun _ _ => (counters_only _).bind fun _ _ => onUsage_only _ _ _

theorem messageStop_only (m : Mapper) : Only (FromEvents key) m.messageStop := by
  unfold Mapper.messageStop
  split
  · exact only_ok _
  · exact only_error (.malformed _ (by decide))

/-- An `error` event is an error of the stream. -/
theorem errorOf_only (key : String) (value : Json) :
    Only (FromEvents key) ((errorOf key value).bind Except.error :
      Except ProviderError (Mapper × List StreamEvent)) := by
  refine Only.bind (x := errorOf key value) ?_ ?_
  · exact (string_only _ _ (by decide)).bind fun _ _ => (string_only _ _ (by decide)).bind fun _ _ => only_ok _
  · intro error herror
    obtain ⟨kind, -, hkind⟩ := Checks.bind_eq_ok herror
    obtain ⟨message, -, hmessage⟩ := Checks.bind_eq_ok hkind
    obtain rfl := Except.ok.inj hmessage
    exact only_error (.stream _ _)

theorem parsed_only (event : Event) : Only (FromEvents key) (parsed fromStr event) := by
  unfold parsed
  split
  · exact only_ok _
  split
  · exact only_error .json
  · dsimp only
    split
    · exact (string_only _ _ (by decide)).bind fun _ _ => only_ok _
    · exact only_ok _

/-- `map_event` fails for what the server sent only. -/
theorem mapEvent_only (key : String) (m : Mapper) (event : Event) :
    Only (FromEvents key) (m.mapEvent fromStr key event) := by
  refine (parsed_only event).bind fun found _ => ?_
  obtain ⟨kind, value⟩ := found
  cases kind with
  | messageStart => exact messageStart_only m value
  | contentBlockStart => exact contentBlockStart_only m value
  | contentBlockDelta => exact contentBlockDelta_only m value
  | contentBlockStop => exact contentBlockStop_only m value
  | messageDelta => exact messageDelta_only m value
  | messageStop => exact messageStop_only m
  | ping => exact only_ok _
  | error => exact errorOf_only key value
  | unknown => exact only_ok _

/-! ### Errors of the parser -/

theorem feedByte_only (acc : Sse.Parser × List Event) (byte : UInt8) :
    Only (FromEvents key) (Sse.Parser.feedByte acc byte) := by
  obtain ⟨p, events⟩ := acc
  rw [Sse.feedByte_eq]
  split
  · exact only_ok _
  split
  · refine Only.map ?_ _
    unfold Sse.Parser.onLine
    split
    · exact only_error .utf8
    · exact only_ok _
  · exact only_ok _

theorem feed_only (p : Sse.Parser) (bytes : List UInt8) : Only (FromEvents key) (p.feed bytes) :=
  Only.foldlM feedByte_only bytes (p, [])

end

end Kyora.Anthropic
