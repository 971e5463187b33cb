import Kyora.Conversation.Basic

/-! # Trace events and records

  What the runtime reports about a session. Stream fragments are ephemeral;
  every other event becomes a persisted record with a sequence number.
-/

namespace Kyora

/-- How a message left its recipient's mailbox. -/
inductive Delivery where
  /-- Appended to the conversation at a turn boundary. -/
  | turn
  /-- Returned by a receive call. -/
  | receive
  /-- Consumed by a wait call that returned the child's outcome. -/
  | wait
  /-- Consumed by the cancel call that stopped the child. -/
  | cancel
  deriving DecidableEq, Repr

/-- Result of an agent or traceable leaf node. -/
structure AgentOutcome where
  node : NodeId
  status : Status
  answer : Conversation.Answer
  /-- Usage charged directly to this node. -/
  usageSelf : Usage
  /-- Usage charged to this node and its descendants. -/
  usageSubtree : Usage
  /-- Admitted assistant turns. -/
  turns : Nat
  deriving DecidableEq, Repr

namespace Trace

/-- An envelope with the time its sender handed it over, in nanoseconds since
    the epoch. -/
structure Posted where
  envelope : Envelope
  sentAt : Int
  deriving DecidableEq, Repr

/-- Begins a session. -/
structure SessionStart where
  session : String
  cwd : String
  kyora : String
  limits : Limits

/-- Freezes a node's request prefix. -/
structure NodeStart where
  node : NodeId
  parent : Option NodeId
  depth : Nat
  /-- Agent or llm. -/
  kind : String
  name : String
  model : String
  originCell : Option Nat
  system : Option String
  tools : List ToolSpec
  limits : Limits
  /-- Leaf prompt; stored as a blob if large. -/
  prompt : Option Json

/-- Write-ahead reservation, flushed before provider dispatch. -/
structure AttemptStart where
  node : NodeId
  attempt : Nat
  model : String
  reserved : Nat
  maxTokens : Nat
  deriving DecidableEq, Repr

/-- Settlement for every started attempt. -/
structure AttemptEnd where
  node : NodeId
  attempt : Nat
  requestId : Option String
  outcome : String
  /-- Recorded charge. -/
  charged : Nat
  /-- Recorded charge above the reservation. -/
  excess : Nat
  /-- Actual usage when known. -/
  usage : Option Usage
  stopReason : Option StopReason
  ms : Nat
  deriving DecidableEq, Repr

/-- One lifecycle, accounting, tool or streaming event. -/
inductive TraceEvent where
  | sessionStart (start : SessionStart)
  | nodeStart (start : NodeStart)
  /-- Appends a history message. -/
  | message (node : NodeId) (message : Message)
  | attemptStart (start : AttemptStart)
  | attemptEnd (settled : AttemptEnd)
  /-- Preserves raw malformed input. -/
  | invalidToolInput (node : NodeId) (call raw : String)
  | error (node : NodeId) (message : String)
  /-- Records one admitted tool call before execution. -/
  | toolCall (node : NodeId) (call name : String) (input : Json)
  | toolResult (node : NodeId) (call content : String) (isError : Bool)
  /-- A message accepted into its recipient's mailbox. -/
  | messageSent (message : Posted)
  /-- Messages taken from an agent's mailbox, in delivery order. -/
  | messageDelivered (node : NodeId) (messages : List Nat) (via : Delivery)
  /-- A message that never reached its recipient. -/
  | messageUndelivered (message : Posted) (reason : String)
  /-- Node shutdown and final accounting. -/
  | nodeEnd (outcome : AgentOutcome)
  | sessionEnd (status : Status)
  /-- Provider stream fragment, never persisted. -/
  | delta (node : NodeId)
  /-- Frontends discard partial output before a retry; never persisted. -/
  | streamReset (node : NodeId)

/-- Whether this event is broadcast without writing a transcript record. -/
def TraceEvent.ephemeral : TraceEvent → Bool
  | .delta _ | .streamReset _ => true
  | _ => false

/-- Common envelope of the records. Ephemeral ones have no sequence number. -/
structure TraceRecord where
  v : Nat
  seq : Option Nat
  /-- RFC 3339 UTC timestamp. -/
  ts : String
  event : TraceEvent

/-- A record of the current format version, stamped by the clock. -/
def TraceRecord.new (event : TraceEvent) (seq : Option Nat) (ts : String) : TraceRecord :=
  ⟨1, seq, ts, event⟩

end Trace

end Kyora
