import Kyora.Trace.Tree
import Kyora.Trace.Values

/-! # Transcripts

  The session writer turns each record into a line of JSON, with a large leaf
  prompt replaced by a reference to a blob. `reconstruct_jsonl` reads the lines
  back and rebuilds the recursion tree.
-/

namespace Kyora.Trace

open Objects (Fields.get_cons Fields.get_nil)

/-! ### Events -/

namespace TraceEvent

/-- The tag and the fields of an event; `none` when it cannot be encoded. The
    ephemeral events are never written. -/
def fields (c : Codec) : TraceEvent → Option Kyora.Fields
  | .sessionStart start => some
    [("type", some (.string "session_start")),
      ("session", some (.string start.session)),
      ("cwd", some (.string start.cwd)),
      ("kyora", some (.string start.kyora)),
      ("limits", some start.limits.json)]
  | .nodeStart start => some
    [("type", some (.string "node_start")),
      ("node", some (.natural start.node)),
      ("parent", some (.option .natural start.parent)),
      ("depth", some (.natural start.depth)),
      ("kind", some (.string start.kind)),
      ("name", some (.string start.name)),
      ("model", some (.string start.model)),
      ("origin_cell", start.originCell.map .natural),
      ("system", some (.option .string start.system)),
      ("tools", some (.list ToolSpec.json start.tools)),
      ("limits", some start.limits.json),
      ("prompt", some (.option id start.prompt))]
  | .message node m => some
    [("type", some (.string "message")),
      ("node", some (.natural node)),
      ("message", some m.json)]
  | .attemptStart start => some
    [("type", some (.string "attempt_start")),
      ("node", some (.natural start.node)),
      ("attempt", some (.natural start.attempt)),
      ("model", some (.string start.model)),
      ("reserved", some (.natural start.reserved)),
      ("max_tokens", some (.natural start.maxTokens))]
  | .attemptEnd settled => some
    [("type", some (.string "attempt_end")),
      ("node", some (.natural settled.node)),
      ("attempt", some (.natural settled.attempt)),
      ("request_id", some (.option .string settled.requestId)),
      ("outcome", some (.string settled.outcome)),
      ("charged", some (.natural settled.charged)),
      ("excess", some (.natural settled.excess)),
      ("usage", some (.option Usage.json settled.usage)),
      ("stop_reason", some (.option (fun stop => .string stop.asStr) settled.stopReason)),
      ("ms", some (.natural settled.ms))]
  | .invalidToolInput node call raw => some
    [("type", some (.string "invalid_tool_input")),
      ("node", some (.natural node)),
      ("call", some (.string call)),
      ("raw", some (.string raw))]
  | .error node text => some
    [("type", some (.string "error")),
      ("node", some (.natural node)),
      ("message", some (.string text))]
  | .toolCall node call name input => some
    [("type", some (.string "tool_call")),
      ("node", some (.natural node)),
      ("call", some (.string call)),
      ("name", some (.string name)),
      ("input", some input)]
  | .toolResult node call content isError => some
    [("type", some (.string "tool_result")),
      ("node", some (.natural node)),
      ("call", some (.string call)),
      ("content", some (.string content)),
      ("is_error", some (.bool isError))]
  | .messageSent posted => some
    (("type", some (.string "message_sent")) :: posted.fields c)
  | .messageDelivered node messages via => some
    [("type", some (.string "message_delivered")),
      ("node", some (.natural node)),
      ("messages", some (.list .natural messages)),
      ("via", some (.string via.asStr))]
  | .messageUndelivered posted reason => some
    (("type", some (.string "message_undelivered")) :: posted.fields c ++
      [("reason", some (.string reason))])
  | .nodeEnd outcome => (outcome.fields c).map (("type", some (.string "node_end")) :: ·)
  | .sessionEnd status => some
    [("type", some (.string "session_end")),
      ("status", some (.string status.asStr))]
  | .delta _ | .streamReset _ => none

/-- The fields of a variant, from the buffer that the members were collected in. -/
def readVariant (c : Codec) (members : Members) : String → Option TraceEvent
  | "session_start" => do
    let session ← members.required "session" Json.text?
    let cwd ← members.required "cwd" Json.text?
    let kyora ← members.required "kyora" Json.text?
    let limits ← members.required "limits" Limits.json?
    return .sessionStart { session, cwd, kyora, limits }
  | "node_start" => do
    let node ← members.required "node" Json.natural?
    let parent ← members.optional "parent" Json.natural?
    let depth ← members.required "depth" Json.natural?
    let kind ← members.required "kind" Json.text?
    let name ← members.required "name" Json.text?
    let model ← members.required "model" Json.text?
    let originCell ← members.optional "origin_cell" Json.natural?
    let system ← members.optional "system" Json.text?
    let tools ← members.required "tools" (Json.list? ToolSpec.json?)
    let limits ← members.required "limits" Limits.json?
    let prompt ← members.optional "prompt" some
    return .nodeStart {
      node, parent, depth, kind, name, model, originCell, system, tools, limits, prompt }
  | "message" => do
    let node ← members.required "node" Json.natural?
    let m ← members.required "message" Message.json?
    return .message node m
  | "attempt_start" => do
    let node ← members.required "node" Json.natural?
    let attempt ← members.required "attempt" Json.natural?
    let model ← members.required "model" Json.text?
    let reserved ← members.required "reserved" Json.natural?
    let maxTokens ← members.required "max_tokens" Json.natural?
    return .attemptStart { node, attempt, model, reserved, maxTokens }
  | "attempt_end" => do
    let node ← members.required "node" Json.natural?
    let attempt ← members.required "attempt" Json.natural?
    let requestId ← members.optional "request_id" Json.text?
    let outcome ← members.required "outcome" Json.text?
    let charged ← members.required "charged" Json.natural?
    let excess ← members.required "excess" Json.natural?
    let usage ← members.optional "usage" Usage.json?
    let stopReason ← members.optional "stop_reason" StopReason.json?
    let ms ← members.required "ms" Json.natural?
    return .attemptEnd {
      node, attempt, requestId, outcome, charged, excess, usage, stopReason, ms }
  | "invalid_tool_input" => do
    let node ← members.required "node" Json.natural?
    let call ← members.required "call" Json.text?
    let raw ← members.required "raw" Json.text?
    return .invalidToolInput node call raw
  | "error" => do
    let node ← members.required "node" Json.natural?
    let text ← members.required "message" Json.text?
    return .error node text
  | "tool_call" => do
    let node ← members.required "node" Json.natural?
    let call ← members.required "call" Json.text?
    let name ← members.required "name" Json.text?
    let input ← members.required "input" some
    return .toolCall node call name input
  | "tool_result" => do
    let node ← members.required "node" Json.natural?
    let call ← members.required "call" Json.text?
    let content ← members.required "content" Json.text?
    let isError ← members.required "is_error" Json.flag?
    return .toolResult node call content isError
  | "message_sent" => do
    let posted ← Posted.read c members
    return .messageSent posted
  | "message_delivered" => do
    let node ← members.required "node" Json.natural?
    let messages ← members.required "messages" (Json.list? Json.natural?)
    let via ← members.required "via" Delivery.json?
    return .messageDelivered node messages via
  | "message_undelivered" => do
    let posted ← Posted.read c members
    let reason ← members.required "reason" Json.text?
    return .messageUndelivered posted reason
  | "node_end" => do
    let outcome ← AgentOutcome.read c .buffered members
    return .nodeEnd outcome
  | "session_end" => do
    let status ← members.required "status" Status.json?
    return .sessionEnd status
  | "stream_reset" => do
    let node ← members.required "node" Json.natural?
    return .streamReset node
  | _ => none

/-- The variant is looked up first. -/
def read (c : Codec) (members : Members) : Option TraceEvent :=
  (members.required "type" Json.text?).bind (readVariant c members)

end TraceEvent

/-! ### Records -/

namespace TraceRecord

def fields (c : Codec) (record : TraceRecord) : Option Kyora.Fields :=
  (record.event.fields c).map fun event =>
    [("v", some (.natural record.v)),
      ("seq", record.seq.map .natural),
      ("ts", some (.string record.ts))] ++ event

/-- The event is read from what is left for the flattened field. -/
def read (c : Codec) (members : Members) : Option TraceRecord := do
  let v ← members.required "v" Json.natural?
  let seq ← members.optional "seq" Json.natural?
  let ts ← members.required "ts" Json.text?
  let event ← TraceEvent.read c (members.without ["v", "seq", "ts"])
  return { v, seq, ts, event }

end TraceRecord

/-! ### The session writer -/

/-- Payload size above which a leaf prompt uses a blob, in bytes. -/
def blobThreshold : Nat := 64 * 1024

/-- What is written for a prompt: itself or, if large, the reference of its blob. -/
def storedPrompt (c : Codec) (prompt : Json) : Json :=
  let bytes := c.print prompt
  if bytes.utf8ByteSize > blobThreshold then
    .ofFields
      [("blob", some (.string ("sha256:" ++ c.digest bytes))),
        ("bytes", some (.natural bytes.utf8ByteSize))]
  else prompt

/-- What is written for a member of a record. -/
def storedMember (c : Codec) (key : String) (value : Json) : Json :=
  if key = "prompt" then storedPrompt c value else value

def storedValue (c : Codec) : Json → Json
  | .object members => .object (members.map fun x => (x.1, storedMember c x.1 x.2))
  | value => value

/-- The line of a record; `none` when the record cannot be encoded. -/
def writeRecord (c : Codec) (record : TraceRecord) : Option String :=
  (record.fields c).map fun fields => c.print (storedValue c (.ofFields fields))

/-- The writer task of a session, with the lines it wrote and their records. -/
structure Session where
  seq : Nat
  /-- A record failed earlier. -/
  failed : Bool
  records : List TraceRecord
  lines : List String

/-- An event handed to the sink. -/
structure Emission where
  event : TraceEvent
  /-- The clock when the writer takes the event. -/
  ts : String
  /-- The file operations of this record succeed. -/
  written : Bool

namespace Session

/-- A session without events. -/
def empty : Session := ⟨0, false, [], []⟩

/-- One turn of the writer: the event is accepted or refused. -/
def write (c : Codec) (s : Session) (e : Emission) : Session × Bool :=
  let record := TraceRecord.new e.event (some s.seq) e.ts
  if s.failed then (s, false)
  else
    match writeRecord c record with
    | some line =>
      if e.written then
        ({ s with
            seq := s.seq + 1
            records := s.records ++ [record]
            lines := s.lines ++ [line] }, true)
      else ({ s with failed := true }, false)
    | none => ({ s with failed := true }, false)

/-- `emit`: an ephemeral event is only broadcast. -/
def emit (c : Codec) (s : Session) (e : Emission) : Session :=
  if e.event.ephemeral then s else (s.write c e).1

/-- A session after some emissions. -/
def run (c : Codec) (emissions : List Emission) : Session := emissions.foldl (emit c) empty

/-- `events.jsonl`: every line is ended. -/
def jsonl (s : Session) : String := String.join (s.lines.map fun line => line ++ "\n")

end Session

/-! ### Reading a transcript -/

/-- The loop of `str::lines`, with the current line reversed: a line may end in
    a carriage return, and the last one may not be ended. -/
def splitLines : List Char → List Char → List (List Char)
  | [], [] => []
  | line, [] => [line.reverse]
  | '\r' :: line, '\n' :: rest => line.reverse :: splitLines [] rest
  | line, '\n' :: rest => line.reverse :: splitLines [] rest
  | line, ch :: rest => splitLines (ch :: line) rest

/-- Unicode `White_Space`. -/
def whiteSpace (ch : Char) : Bool :=
  let n := ch.toNat
  (9 ≤ n && n ≤ 13) || n == 0x20 || n == 0x85 || n == 0xA0 || n == 0x1680 ||
    (0x2000 ≤ n && n ≤ 0x200A) || n == 0x2028 || n == 0x2029 || n == 0x202F || n == 0x205F ||
    n == 0x3000

/-- One line as a record. -/
def readRecord (c : Codec) (line : String) : Option TraceRecord :=
  (c.parse line).bind (Json.object? (TraceRecord.read c))

/-- Parses the contents of `events.jsonl` and reconstructs the tree. -/
def reconstructJsonl (c : Codec) (jsonl : String) :
    Option (Except ReadError (List RecursionTree)) :=
  let lines := (splitLines [] jsonl.toList).filter fun line => !line.all whiteSpace
  match lines.mapM fun line => readRecord c (String.ofList line) with
  | none => some (.error .json)
  | some records => reconstructTree records

end Kyora.Trace
