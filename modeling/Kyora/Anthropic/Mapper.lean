import Kyora.Accumulation.Basic
import Kyora.Anthropic.Counters
import Kyora.Sse.Basic
import Mathlib.Data.String.Basic

/-! # From server-sent events to streaming events

  `Mapper` turns each event of a response stream into streaming events. Blocks of
  a server tool are withheld until they stop: their input arrives in deltas that
  no streaming event has.
-/

namespace Kyora

/-- `value[key] = inner` for an object. An object takes its members in key order,
    `null` becomes an object, and no other value is assigned to. -/
def Json.set (value : Json) (key : String) (inner : Json) : Json :=
  match value with
  | .object members => .object (SortedMap.insertEntry key inner members)
  | .null => .object [(key, inner)]
  | value => value

namespace Anthropic

open Sse (Event)

/-! ### Fields of an event -/

/-- `string`. -/
def string (value : Json) (field : String) : Except ProviderError String :=
  match value.index field with
  | .string text => .ok text
  | _ => .error (malformed field)

/-- The closure `index`. -/
def index (value : Json) : Except ProviderError Nat :=
  match (value.index "index").natural? with
  | some index => .ok index
  | none => .error (malformed "index")

/-- `redact`. -/
def redact (message key : String) : String :=
  if key = "" then message else message.replace key "[redacted]"

/-- The kinds of event that `map_event` tells apart. -/
inductive Kind where
  | messageStart | contentBlockStart | contentBlockDelta | contentBlockStop | messageDelta
  | messageStop | ping | error | unknown
  deriving DecidableEq, Repr

def Kind.ofStr : String → Kind
  | "message_start" => .messageStart
  | "content_block_start" => .contentBlockStart
  | "content_block_delta" => .contentBlockDelta
  | "content_block_stop" => .contentBlockStop
  | "message_delta" => .messageDelta
  | "message_stop" => .messageStop
  | "ping" => .ping
  | "error" => .error
  | _ => .unknown

/-- The block that a `content_block` starts. -/
def startOf (kind : String) (raw : Json) : Except ProviderError BlockStart :=
  match kind with
  | "text" => .ok .text
  | "thinking" => .ok .thinking
  | "tool_use" => do
    let id ← string raw "id"
    let name ← string raw "name"
    return .toolUse id name
  | kind => .ok (.opaqueBlock "anthropic" kind raw)

/-- The event of a delta, `none` for an unknown kind of delta. -/
def deltaOf (index : Nat) (kind : String) (delta : Json) :
    Except ProviderError (Option StreamEvent) :=
  match kind with
  | "text_delta" => (string delta "text").map fun text => some (.textDelta index text)
  | "thinking_delta" =>
    (string delta "thinking").map fun thinking => some (.thinkingDelta index thinking)
  | "signature_delta" =>
    (string delta "signature").map fun signature => some (.signatureDelta index signature)
  | "input_json_delta" =>
    (string delta "partial_json").map fun text => some (.toolInputDelta index text)
  | _ => .ok none

/-- The stop reason of a message delta. -/
def stopReasonOf (reason : Json) : Except ProviderError (Option StopReason) :=
  match reason with
  | .null => .ok none
  | reason =>
    match StopReason.json? reason with
    | some stopReason => .ok (some stopReason)
    | none => .error (malformed "stop_reason")

/-! ### The mapper -/

/-- `Mapper`. The server tools are a `HashMap` by block index. -/
structure Mapper where
  serverTools : SortedMap Nat (Json × String)
  model : String
  usage : Usage

/-- `Mapper::default`. -/
def Mapper.new : Mapper := ⟨.empty, "", 0⟩

namespace Mapper

/-- Takes over the model of the serving iteration. -/
def serve (m : Mapper) : Option UsageIteration → Except ProviderError Mapper
  | none => .ok m
  | some serving =>
    if serving.model = "" then .error (malformed "fallback model")
    else .ok { m with model := serving.model }

/-- What `map_event` does after its match for an event that reports usage. -/
def onUsage (m : Mapper) (mapped : StreamEvent) (usage : Json) :
    Except ProviderError (Mapper × List StreamEvent) := do
  let latest ← counters usage
  match ← iterations usage with
  | none => return ({ m with usage := fillMissingCounters latest usage m.usage }, [mapped])
  | some iterations =>
    let serving := serving iterations
    let served ← m.serve serving
    let latest := fillMissingCounters latest usage (serving.elim m.usage UsageIteration.usage)
    return ({ served with usage := latest },
      [mapped, .usageSnapshot served.model latest iterations])

/-- `message_start`. -/
def messageStart (m : Mapper) (value : Json) :
    Except ProviderError (Mapper × List StreamEvent) := do
  let message := value.index "message"
  let model ← string message "model"
  let usage ← counters (message.index "usage")
  onUsage { m with model, usage }
    (.messageStart (message.index "id").text? model usage) (message.index "usage")

/-- `content_block_start`. -/
def contentBlockStart (m : Mapper) (value : Json) :
    Except ProviderError (Mapper × List StreamEvent) := do
  let raw := value.index "content_block"
  let kind ← string raw "type"
  if kind = "server_tool_use" then
    let index ← index value
    match m.serverTools.get? index with
    | some _ => .error (malformed "duplicate server tool index")
    | none => return ({ m with serverTools := m.serverTools.insert index (raw, "") }, [])
  else
    let block ← startOf kind raw
    let index ← index value
    return (m, [.blockStart index block])

/-- `content_block_delta`. -/
def contentBlockDelta (m : Mapper) (value : Json) :
    Except ProviderError (Mapper × List StreamEvent) := do
  let delta := value.index "delta"
  let index ← index value
  match m.serverTools.get? index with
  | some (raw, text) =>
    let kind ← string delta "type"
    if kind = "input_json_delta" then
      let partialJson ← string delta "partial_json"
      return ({ m with serverTools := m.serverTools.insert index (raw, text ++ partialJson) }, [])
    else return (m, [])
  | none =>
    let kind ← string delta "type"
    let event ← deltaOf index kind delta
    return (m, event.toList)

/-- `message_delta`. -/
def messageDelta (m : Mapper) (value : Json) :
    Except ProviderError (Mapper × List StreamEvent) := do
  let stopReason ← stopReasonOf ((value.index "delta").index "stop_reason")
  let usage ← counters (value.index "usage")
  m.onUsage (.messageDelta stopReason usage) (value.index "usage")

/-- `message_stop`. -/
def messageStop (m : Mapper) : Except ProviderError (Mapper × List StreamEvent) :=
  if m.serverTools.entries.isEmpty then .ok (m, [.messageStop])
  else .error (malformed "open server tool block")

end Mapper

/-- An `error` event ends the stream. Its texts could repeat the key. -/
def errorOf (key : String) (value : Json) : Except ProviderError ProviderError := do
  let error := value.index "error"
  let kind ← string error "type"
  let message ← string error "message"
  return .stream (redact kind key) (redact message key)

section Map

-- `serde_json::from_str`, strict on the whole text.
variable (fromStr : String → Option Json)

/-- The block of a server tool that stops. -/
def completed (raw : Json) (partialJson : String) : Except ProviderError Json :=
  if partialJson = "" then .ok raw
  else
    match fromStr partialJson with
    | some input => .ok (raw.set "input" input)
    | none => .error (malformed "server tool input")

/-- `content_block_stop`. -/
def Mapper.contentBlockStop (m : Mapper) (value : Json) :
    Except ProviderError (Mapper × List StreamEvent) := do
  let index ← index value
  match m.serverTools.get? index with
  | some (raw, partialJson) =>
    let raw ← completed fromStr raw partialJson
    return ({ m with serverTools := m.serverTools.erase index },
      [.blockStart index (.opaqueBlock "anthropic" "server_tool_use" raw), .blockStop index])
  | none => return (m, [.blockStop index])

/-- The kind of an event and its data. A `ping` is not parsed. -/
def parsed (event : Event) : Except ProviderError (Kind × Json) :=
  if event.event = "ping".toList then .ok (.ping, .null)
  else
    match fromStr (String.ofList event.data) with
    | none => .error (.protocol "invalid SSE JSON")
    | some value => do
      let kind ← if event.event = "message".toList then string value "type"
        else .ok (String.ofList event.event)
      return (Kind.ofStr kind, value)

/-- The match of `map_event` on the kind, with what follows it. -/
def Mapper.onKind (key : String) (m : Mapper) (kind : Kind) (value : Json) :
    Except ProviderError (Mapper × List StreamEvent) :=
  match kind with
  | .messageStart => m.messageStart value
  | .contentBlockStart => m.contentBlockStart value
  | .contentBlockDelta => m.contentBlockDelta value
  | .contentBlockStop => m.contentBlockStop fromStr value
  | .messageDelta => m.messageDelta value
  | .messageStop => m.messageStop
  | .ping => .ok (m, [])
  | .error => (errorOf key value).bind .error
  | .unknown => .ok (m, [])

/-- `map_event`. -/
def Mapper.mapEvent (key : String) (m : Mapper) (event : Event) :
    Except ProviderError (Mapper × List StreamEvent) := do
  let (kind, value) ← parsed fromStr event
  m.onKind fromStr key kind value

/-! ### A stream -/

/-- The mapper, and the accumulator that takes the mapped events. -/
structure State where
  mapper : Mapper
  acc : Accumulation.Accumulator

def State.new : State := ⟨.new, .new⟩

/-- One server-sent event. -/
def State.feed (key : String) (s : State) (event : Event) : Except ProviderError State := do
  let (mapper, events) ← s.mapper.mapEvent fromStr key event
  let acc ← events.foldlM (Accumulation.Accumulator.push fromStr) s.acc
  return ⟨mapper, acc⟩

/-- The server-sent events of a stream. -/
def State.run (key : String) (events : List Event) : Except ProviderError State :=
  events.foldlM (State.feed fromStr key) State.new

end Map

/-- The name, the data and the parsed data of each event of a stream. -/
abbrev Sample : Type := List (String × String × Json)

def Sample.events (sample : Sample) : List Event :=
  sample.map fun x => ⟨x.1.toList, x.2.1.toList, [], none⟩

def Sample.fromStr (sample : Sample) (text : String) : Option Json :=
  (sample.map Prod.snd).lookup text

def startSample : String × String × Json :=
  ("message_start",
    "\x7b\"message\":\x7b\"model\":\"a\",\"usage\":\x7b\"input_tokens\":5\x7d\x7d\x7d",
    .object [("message", .object [("model", .string "a"),
      ("usage", .object [("input_tokens", .integer 5)])])])

end Anthropic

end Kyora
