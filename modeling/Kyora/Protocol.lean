import Kyora.Basic

/-! # Provider-neutral messages

  The messages, requests and responses that the runtime exchanges with a
  model, whichever provider serves it.
-/

namespace Kyora

/-- A JSON value. Objects list their members in key order. -/
inductive Json where
  | null
  | bool (b : Bool)
  | integer (i : Int)
  /-- A number that is not an integer, by its decimal text. -/
  | decimal (text : String)
  | string (s : String)
  | array (items : List Json)
  | object (members : List (String × Json))

/-! ### Messages -/

/-- The author of a conversation message. -/
inductive Role where
  | user | assistant
  deriving DecidableEq, Repr

/-- One part of a tool result. -/
inductive ToolResultPart where
  | text (text : String)
  deriving DecidableEq, Repr

/-- One part of a message's content. -/
inductive ContentBlock where
  | text (text : String)
  /-- Provider reasoning, which must be replayed verbatim. -/
  | thinking (thinking : String) (signature : Option String)
  | toolUse (id name : String) (input : Json)
  | toolResult (toolUseId : String) (content : List ToolResultPart) (isError : Bool)
  /-- A provider-specific block. Other providers must drop it. -/
  | opaqueBlock (provider kind : String) (raw : Json)

structure Message where
  role : Role
  /-- The content in replay order. -/
  content : List ContentBlock

/-- A request to execute a tool. -/
structure ToolUse where
  id : String
  name : String
  input : Json

def ContentBlock.toolUse? : ContentBlock → Option ToolUse
  | .toolUse id name input => some ⟨id, name, input⟩
  | _ => none

/-- Concatenates the text blocks, excluding reasoning and tools. -/
def Message.text (m : Message) : String :=
  String.join (m.content.filterMap fun
    | .text text => some text
    | _ => none)

/-- The tool uses in content order. -/
def Message.toolUses (m : Message) : List ToolUse := m.content.filterMap ContentBlock.toolUse?

/-! ### Responses -/

/-- Why a model stopped. -/
inductive StopReason where
  | endTurn | toolUse | maxTokens | stopSequence | pauseTurn | refusal
  | modelContextWindowExceeded
  | other (reason : String)
  deriving DecidableEq, Repr

/-- The spelling of a stop reason. -/
def StopReason.asStr : StopReason → String
  | .endTurn => "end_turn"
  | .toolUse => "tool_use"
  | .maxTokens => "max_tokens"
  | .stopSequence => "stop_sequence"
  | .pauseTurn => "pause_turn"
  | .refusal => "refusal"
  | .modelContextWindowExceeded => "model_context_window_exceeded"
  | .other reason => reason

structure ModelResponse where
  /-- Generated content in order. -/
  content : List ContentBlock
  stopReason : StopReason
  usage : Usage

/-! ### Streaming -/

/-- Usage for one provider-reported attempt, kept separate across models. -/
structure UsageIteration where
  /-- The model that ran this attempt, empty when the provider omits it. -/
  model : String
  kind : String
  usage : Usage
  deriving DecidableEq, Repr

/-- The initial information for a streamed content block. -/
inductive BlockStart where
  | text
  | thinking
  /-- A tool-use block whose arguments arrive as JSON deltas. -/
  | toolUse (id name : String)
  | opaqueBlock (provider kind : String) (raw : Json)

/-- A provider-neutral streaming event. -/
inductive StreamEvent where
  /-- Begins a response with its initial usage counters. -/
  | messageStart (id : Option String) (model : String) (usage : Usage)
  /-- Begins a block at an index in the final content array. -/
  | blockStart (index : Nat) (block : BlockStart)
  | textDelta (index : Nat) (text : String)
  | thinkingDelta (index : Nat) (thinking : String)
  | signatureDelta (index : Nat) (signature : String)
  | toolInputDelta (index : Nat) (partialJson : String)
  /-- Ends a block, so that its tool arguments can be parsed. -/
  | blockStop (index : Nat)
  /-- Updates the stop reason and the counters; a zero counter is no update. -/
  | messageDelta (stopReason : Option StopReason) (usage : Usage)
  /-- Replaces the usage by that of the serving model. -/
  | usageSnapshot (model : String) (usage : Usage) (iterations : List UsageIteration)
  | messageStop

/-! ### Requests -/

/-- A tool definition made available to the model. -/
structure ToolSpec where
  name : String
  description : String
  inputSchema : Json
  /-- Providers should stream the input as it is generated. -/
  largeInput : Bool

inductive Effort where
  | low | medium | high | xhigh | max
  deriving DecidableEq, Repr

inductive ThinkingDisplay where
  | omitted | summarized
  deriving DecidableEq, Repr

/-- Provider-neutral request options. -/
structure RequestOptions where
  effort : Option Effort
  thinkingDisplay : Option ThinkingDisplay
  disableCache : Bool
  taskBudgetTotal : Option Nat

structure ModelRequest where
  model : String
  system : Option String
  /-- The conversation in order. -/
  messages : List Message
  tools : List ToolSpec
  maxTokens : Nat
  options : RequestOptions

end Kyora
