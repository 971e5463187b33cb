import Kyora.Trace.Event
import Kyora.Trace.Serde

/-! # Encodings of the values in a trace

  The JSON form of everything an event carries: counters, limits, tools,
  messages, envelopes and outcomes. Each value has its fields, a decoder of the
  members of its object, and the lemma that connects the two.
-/

namespace Kyora

open Objects (Fields.get_cons Fields.get_nil)

/-- What the transcript relies on outside its own code. -/
structure Codec where
  /-- `serde_json`, compact. -/
  print : Json → String
  parse : String → Option Json
  /-- RFC 3339 of a time in nanoseconds since the epoch. -/
  printTime : Int → String
  parseTime : String → Option Int
  /-- SHA-256 in lower case hexadecimal digits. -/
  digest : String → String

/-! ### Counters and limits -/

namespace Usage

def fields (u : Usage) : Kyora.Fields :=
  [("input_tokens", some (.natural u.inputTokens)),
    ("output_tokens", some (.natural u.outputTokens)),
    ("cache_creation_input_tokens", some (.natural u.cacheCreationInputTokens)),
    ("cache_read_input_tokens", some (.natural u.cacheReadInputTokens))]

/-- Omitted counters are zero. -/
def read (members : Members) : Option Usage := do
  let inputTokens ← members.defaulted "input_tokens" 0 Json.natural?
  let outputTokens ← members.defaulted "output_tokens" 0 Json.natural?
  let cacheCreationInputTokens ←
    members.defaulted "cache_creation_input_tokens" 0 Json.natural?
  let cacheReadInputTokens ← members.defaulted "cache_read_input_tokens" 0 Json.natural?
  return ⟨inputTokens, outputTokens, cacheCreationInputTokens, cacheReadInputTokens⟩

def json (u : Usage) : Json := .ofFields u.fields

def json? : Json → Option Usage := Json.object? read

theorem read_fields (u : Usage) : read u.fields.get = some u := by
  simp [read, fields, Members.defaulted, Fields.get_cons]

@[simp] theorem json?_json (u : Usage) : json? u.json = some u := by
  rw [json?, json, Json.object?_ofFields read (by simp [fields])]
  exact read_fields u

end Usage

/-- Nanoseconds in a second. -/
def nanosPerSec : Nat := 1000000000

/-- `Duration`, in nanoseconds. -/
def durationFields (d : Nat) : Fields :=
  [("secs", some (.natural (d / nanosPerSec))), ("nanos", some (.natural (d % nanosPerSec)))]

def readDuration (members : Members) : Option Nat := do
  let secs ← members.required "secs" Json.natural?
  let nanos ← members.required "nanos" Json.natural?
  return secs * nanosPerSec + nanos

def Json.duration (d : Nat) : Json := .ofFields (durationFields d)

def Json.duration? : Json → Option Nat := Json.object? readDuration

@[simp] theorem Json.duration?_duration (d : Nat) : duration? (duration d) = some d := by
  have hread : readDuration (durationFields d).get = some d := by
    have hsum : d / nanosPerSec * nanosPerSec + d % nanosPerSec = d := by
      rw [Nat.mul_comm]
      exact Nat.div_add_mod d nanosPerSec
    simp [readDuration, durationFields, Members.required, Fields.get_cons, hsum]
  rw [duration?, duration, Json.object?_ofFields readDuration (by simp [durationFields])]
  exact hread

namespace Limits

def fields (l : Limits) : Kyora.Fields :=
  [("max_depth", some (.natural l.maxDepth)),
    ("budget_tokens", some (.natural l.budgetTokens)),
    ("max_agents_total", some (.natural l.maxAgentsTotal)),
    ("max_agents_live", some (.natural l.maxAgentsLive)),
    ("max_llm_calls", some (.natural l.maxLlmCalls)),
    ("max_inflight_requests", some (.natural l.maxInflightRequests)),
    ("max_turns", some (.natural l.maxTurns)),
    ("subagent_max_turns", some (.natural l.subagentMaxTurns)),
    ("run_timeout", some (.duration l.runTimeout)),
    ("cell_timeout", some (.duration l.cellTimeout)),
    ("max_cell_timeout", some (.duration l.maxCellTimeout)),
    ("request_idle", some (.duration l.requestIdle)),
    ("request_total", some (.duration l.requestTotal)),
    ("max_output_tokens", some (.natural l.maxOutputTokens)),
    ("llm_max_output_tokens", some (.natural l.llmMaxOutputTokens)),
    ("tool_output_chars", some (.natural l.toolOutputChars)),
    ("mailbox_capacity", some (.natural l.mailboxCapacity)),
    ("message_chars", some (.natural l.messageChars)),
    ("delivery_chars", some (.natural l.deliveryChars))]

def read (members : Members) : Option Limits := do
  let maxDepth ← members.required "max_depth" Json.natural?
  let budgetTokens ← members.required "budget_tokens" Json.natural?
  let maxAgentsTotal ← members.required "max_agents_total" Json.natural?
  let maxAgentsLive ← members.required "max_agents_live" Json.natural?
  let maxLlmCalls ← members.required "max_llm_calls" Json.natural?
  let maxInflightRequests ← members.required "max_inflight_requests" Json.natural?
  let maxTurns ← members.required "max_turns" Json.natural?
  let subagentMaxTurns ← members.required "subagent_max_turns" Json.natural?
  let runTimeout ← members.required "run_timeout" Json.duration?
  let cellTimeout ← members.required "cell_timeout" Json.duration?
  let maxCellTimeout ← members.required "max_cell_timeout" Json.duration?
  let requestIdle ← members.required "request_idle" Json.duration?
  let requestTotal ← members.required "request_total" Json.duration?
  let maxOutputTokens ← members.required "max_output_tokens" Json.natural?
  let llmMaxOutputTokens ← members.required "llm_max_output_tokens" Json.natural?
  let toolOutputChars ← members.required "tool_output_chars" Json.natural?
  let mailboxCapacity ←
    members.defaulted "mailbox_capacity" default.mailboxCapacity Json.natural?
  let messageChars ← members.defaulted "message_chars" default.messageChars Json.natural?
  let deliveryChars ← members.defaulted "delivery_chars" default.deliveryChars Json.natural?
  return {
    maxDepth, budgetTokens, maxAgentsTotal, maxAgentsLive, maxLlmCalls, maxInflightRequests,
    maxTurns, subagentMaxTurns, runTimeout, cellTimeout, maxCellTimeout, requestIdle,
    requestTotal, maxOutputTokens, llmMaxOutputTokens, toolOutputChars, mailboxCapacity,
    messageChars, deliveryChars }

def json (l : Limits) : Json := .ofFields l.fields

def json? : Json → Option Limits := Json.object? read

theorem read_fields (l : Limits) : read l.fields.get = some l := by
  simp [read, fields, Members.required, Members.defaulted, Fields.get_cons]

@[simp] theorem json?_json (l : Limits) : json? l.json = some l := by
  rw [json?, json, Json.object?_ofFields read (by simp [fields])]
  exact read_fields l

end Limits

/-! ### Names -/

/-- The spellings of an enum with unit variants tell its values apart. -/
theorem Json.name?_string {α : Type} [DecidableEq α] {all : List α} {asStr : α → String}
    (hinj : ∀ x ∈ all, ∀ y ∈ all, asStr x = asStr y → x = y) {x : α} (hx : x ∈ all) :
    name? all asStr (.string (asStr x)) = some x := by
  unfold name?
  have hsome : (all.find? fun y => asStr y == asStr x).isSome := by
    rw [List.find?_isSome]
    exact ⟨x, hx, beq_self_eq_true _⟩
  obtain ⟨y, hy⟩ := Option.isSome_iff_exists.mp hsome
  have heq : (asStr y == asStr x) = true := by
    have hfound := List.find?_some hy
    exact hfound
  rw [hinj y (List.mem_of_find?_eq_some hy) x hx (eq_of_beq heq)] at hy
  exact hy

def Role.asStr : Role → String
  | .user => "user"
  | .assistant => "assistant"

def Delivery.asStr : Delivery → String
  | .turn => "turn"
  | .receive => "receive"
  | .wait => "wait"
  | .cancel => "cancel"

def Role.json? : Json → Option Role := Json.name? [.user, .assistant] Role.asStr

def Delivery.json? : Json → Option Delivery :=
  Json.name? [.turn, .receive, .wait, .cancel] Delivery.asStr

def MessageKind.json? : Json → Option MessageKind :=
  Json.name? [.message, .result, .error, .cancelled] MessageKind.asStr

def Status.json? : Json → Option Status :=
  Json.name? [.completed, .maxTurns, .budgetExhausted, .timeout, .contextExhausted, .cancelled,
    .refused, .failed, .interrupted] Status.asStr

@[simp] theorem Role.json?_string (r : Role) : json? (.string r.asStr) = some r :=
  Json.name?_string (by decide) (by cases r <;> decide)

@[simp] theorem Delivery.json?_string (d : Delivery) : json? (.string d.asStr) = some d :=
  Json.name?_string (by decide) (by cases d <;> decide)

@[simp] theorem MessageKind.json?_string (k : MessageKind) :
    json? (.string k.asStr) = some k :=
  Json.name?_string (by decide) (by cases k <;> decide)

@[simp] theorem Status.json?_string (s : Status) : json? (.string s.asStr) = some s :=
  Json.name?_string (by decide) (by cases s <;> decide)

namespace StopReason

/-- The stop reasons with a spelling of their own. -/
def known : List StopReason :=
  [.endTurn, .toolUse, .maxTokens, .stopSequence, .pauseTurn, .refusal,
    .modelContextWindowExceeded]

/-- A spelling that is not known is preserved. -/
def ofStr (reason : String) : StopReason :=
  (known.find? fun stop => stop.asStr == reason).getD (.other reason)

def json? : Json → Option StopReason
  | .string reason => some (ofStr reason)
  | _ => none

/-- Another reason that is spelled like a known one. -/
def Disguised (stop : StopReason) : Prop :=
  ∃ reason, stop = .other reason ∧ ∃ k ∈ known, k.asStr = reason

/-- A stop reason is read back from its spelling, unless it is disguised. -/
theorem ofStr_asStr (stop : StopReason) : ofStr stop.asStr = stop ↔ ¬stop.Disguised := by
  cases stop with
  | other reason =>
    rw [Disguised]
    simp only [other.injEq, asStr, exists_eq_left', not_exists, not_and]
    unfold ofStr
    cases hfind : known.find? fun stop => stop.asStr == reason with
    | none =>
      simp only [Option.getD_none, true_iff]
      intro stop hstop heq
      have hne := List.find?_eq_none.mp hfind stop hstop
      exact hne (beq_iff_eq.mpr heq)
    | some stop =>
      have hmem := List.mem_of_find?_eq_some hfind
      have heq : (stop.asStr == reason) = true := by
        have hfound := List.find?_some hfind
        exact hfound
      simp only [Option.getD_some]
      constructor
      · -- a known reason is not another one
        rintro rfl
        exact absurd hmem (by simp [known])
      · intro h
        exact absurd (eq_of_beq heq) (h stop hmem)
  | endTurn | toolUse | maxTokens | stopSequence | pauseTurn | refusal
  | modelContextWindowExceeded =>
    simp only [Disguised, reduceCtorEq, false_and, exists_false, not_false_eq_true, iff_true]
    decide

end StopReason

/-! ### Messages -/

namespace ToolSpec

def fields (t : ToolSpec) : Kyora.Fields :=
  [("name", some (.string t.name)),
    ("description", some (.string t.description)),
    ("input_schema", some t.inputSchema),
    ("large_input", if t.largeInput then some (.bool true) else none)]

def read (members : Members) : Option ToolSpec := do
  let name ← members.required "name" Json.text?
  let description ← members.required "description" Json.text?
  let inputSchema ← members.required "input_schema" some
  let largeInput ← members.defaulted "large_input" false Json.flag?
  return { name, description, inputSchema, largeInput }

def json (t : ToolSpec) : Json := .ofFields t.fields

def json? : Json → Option ToolSpec := Json.object? read

theorem read_fields (t : ToolSpec) : read t.fields.get = some t := by
  obtain ⟨name, description, inputSchema, largeInput⟩ := t
  cases largeInput <;>
    simp [read, fields, Members.required, Members.defaulted, Fields.get_cons]

@[simp] theorem json?_json (t : ToolSpec) : json? t.json = some t := by
  rw [json?, json, Json.object?_ofFields read (by simp [fields])]
  exact read_fields t

end ToolSpec

namespace ToolResultPart

def fields : ToolResultPart → Kyora.Fields
  | .text s => [("type", some (.string "text")), ("text", some (.string s))]

def read (members : Members) : Option ToolResultPart := do
  match ← members.required "type" Json.text? with
  | "text" =>
    let s ← members.required "text" Json.text?
    return .text s
  | _ => none

def json (p : ToolResultPart) : Json := .ofFields p.fields

def json? : Json → Option ToolResultPart := Json.object? read

@[simp] theorem json?_json (p : ToolResultPart) : json? p.json = some p := by
  obtain ⟨text⟩ := p
  rw [json?, json, Json.object?_ofFields read (by simp [fields])]
  simp [read, fields, Members.required, Fields.get_cons]

end ToolResultPart

namespace ContentBlock

def fields : ContentBlock → Kyora.Fields
  | .text s => [("type", some (.string "text")), ("text", some (.string s))]
  | .thinking s signature =>
    [("type", some (.string "thinking")),
      ("thinking", some (.string s)),
      ("signature", some (.option .string signature))]
  | .toolUse id name input =>
    [("type", some (.string "tool_use")),
      ("id", some (.string id)),
      ("name", some (.string name)),
      ("input", some input)]
  | .toolResult toolUseId content isError =>
    [("type", some (.string "tool_result")),
      ("tool_use_id", some (.string toolUseId)),
      ("content", some (.list ToolResultPart.json content)),
      ("is_error", some (.bool isError))]
  | .opaqueBlock provider kind raw =>
    [("type", some (.string "opaque")),
      ("provider", some (.string provider)),
      ("kind", some (.string kind)),
      ("raw", some raw)]

def read (members : Members) : Option ContentBlock := do
  match ← members.required "type" Json.text? with
  | "text" =>
    let s ← members.required "text" Json.text?
    return .text s
  | "thinking" =>
    let s ← members.required "thinking" Json.text?
    let signature ← members.optional "signature" Json.text?
    return .thinking s signature
  | "tool_use" =>
    let id ← members.required "id" Json.text?
    let name ← members.required "name" Json.text?
    let input ← members.required "input" some
    return .toolUse id name input
  | "tool_result" =>
    let toolUseId ← members.required "tool_use_id" Json.text?
    let content ← members.required "content" (Json.list? ToolResultPart.json?)
    let isError ← members.required "is_error" Json.flag?
    return .toolResult toolUseId content isError
  | "opaque" =>
    let provider ← members.required "provider" Json.text?
    let kind ← members.required "kind" Json.text?
    let raw ← members.required "raw" some
    return .opaqueBlock provider kind raw
  | _ => none

def json (b : ContentBlock) : Json := .ofFields b.fields

def json? : Json → Option ContentBlock := Json.object? read

theorem read_fields (b : ContentBlock) : read b.fields.get = some b := by
  cases b with
  | thinking s signature =>
    have hsignature : (fields (.thinking s signature)).get "signature" =
        some (.option .string signature) := by simp [fields, Fields.get_cons]
    have hoptional := Members.optional_of .string hsignature fun s _ =>
      ⟨Json.text?_string s, (nofun : Json.string s ≠ .null)⟩
    simp [read, hoptional]
    simp [fields, Members.required, Fields.get_cons]
  | toolResult toolUseId content isError =>
    have hcontent := Json.list?_list content fun p _ => ToolResultPart.json?_json p
    simp [read, fields, Members.required, Fields.get_cons, hcontent]
  | text | toolUse | opaqueBlock => simp [read, fields, Members.required, Fields.get_cons]

@[simp] theorem json?_json (b : ContentBlock) : json? b.json = some b := by
  rw [json?, json, Json.object?_ofFields read (by cases b <;> simp [fields])]
  exact read_fields b

end ContentBlock

namespace Message

def fields (m : Message) : Kyora.Fields :=
  [("role", some (.string m.role.asStr)),
    ("content", some (.list ContentBlock.json m.content))]

def read (members : Members) : Option Message := do
  let role ← members.required "role" Role.json?
  let content ← members.required "content" (Json.list? ContentBlock.json?)
  return { role, content }

def json (m : Message) : Json := .ofFields m.fields

def json? : Json → Option Message := Json.object? read

theorem read_fields (m : Message) : read m.fields.get = some m := by
  have hcontent := Json.list?_list m.content fun b _ => ContentBlock.json?_json b
  simp [read, fields, Members.required, Fields.get_cons, hcontent]

@[simp] theorem json?_json (m : Message) : json? m.json = some m := by
  rw [json?, json, Json.object?_ofFields read (by simp [fields])]
  exact read_fields m

end Message

/-! ### Envelopes and outcomes -/

namespace Trace.Posted

def fields (c : Codec) (p : Posted) : Kyora.Fields :=
  [("id", some (.natural p.envelope.id)),
    ("from", some (.natural p.envelope.from_)),
    ("to", some (.natural p.envelope.to_)),
    ("kind", some (.string p.envelope.kind.asStr)),
    ("body", some (.string p.envelope.body)),
    ("sent_at", some (.string (c.printTime p.sentAt))),
    ("spawn", p.envelope.spawn.map .natural),
    ("status", p.envelope.status.map fun status => .string status.asStr)]

def read (c : Codec) (members : Members) : Option Posted := do
  let id ← members.required "id" Json.natural?
  let from_ ← members.required "from" Json.natural?
  let to_ ← members.required "to" Json.natural?
  let kind ← members.required "kind" MessageKind.json?
  let body ← members.required "body" Json.text?
  let sentAt ← members.required "sent_at" fun json => json.text?.bind c.parseTime
  let spawn ← members.optional "spawn" Json.natural?
  let status ← members.optional "status" Status.json?
  return ⟨{ id, from_, to_, kind, body, spawn, status }, sentAt⟩

end Trace.Posted

namespace Conversation.Answer

/-- A structured answer is parsed again; bytes that are not JSON are refused. -/
def json (c : Codec) : Answer → Option Json
  | .text s => some (.ofFields [("text", some (.string s))])
  | .value raw => (c.parse raw).map fun json => .ofFields [("value", some json)]

/-- An externally tagged enum is an object of one member. Raw JSON can be taken
    from the parser only, not from a buffer. -/
def json? (c : Codec) (access : Access) : Json → Option Answer
  | .object [("text", json)] => json.text?.map .text
  | .object [("value", json)] =>
    match access with
    | .direct => some (.value (c.print json))
    | .buffered => none
  | _ => none

@[simp] theorem json?_text (c : Codec) (access : Access) (s : String) :
    json? c access (.ofFields [("text", some (.string s))]) = some (.text s) := by
  simp [json?, Json.ofFields, Objects.Fields.members, Objects.Fields.member?]

@[simp] theorem json?_value_buffered (c : Codec) (json : Json) :
    json? c .buffered (.ofFields [("value", some json)]) = none := by
  simp [json?, Json.ofFields, Objects.Fields.members, Objects.Fields.member?]

end Conversation.Answer

namespace AgentOutcome

def fields (c : Codec) (o : AgentOutcome) : Option Kyora.Fields :=
  (o.answer.json c).map fun answer =>
    [("node", some (.natural o.node)),
      ("status", some (.string o.status.asStr)),
      ("answer", some answer),
      ("usage_self", some o.usageSelf.json),
      ("usage_subtree", some o.usageSubtree.json),
      ("turns", some (.natural o.turns))]

def read (c : Codec) (access : Access) (members : Members) : Option AgentOutcome := do
  let node ← members.required "node" Json.natural?
  let status ← members.required "status" Status.json?
  let answer ← members.required "answer" (Conversation.Answer.json? c access)
  let usageSelf ← members.required "usage_self" Usage.json?
  let usageSubtree ← members.required "usage_subtree" Usage.json?
  let turns ← members.required "turns" Json.natural?
  return { node, status, answer, usageSelf, usageSubtree, turns }

end AgentOutcome

end Kyora
