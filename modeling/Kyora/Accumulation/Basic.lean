import Kyora.Attempts.Retry
import Kyora.Protocol
import Kyora.Framework.SortedMap

/-! # Building a response from streaming events

  `Accumulator` takes one event at a time, keeps a pending block for each index
  and refuses an event that does not fit. `finish` gives the response, its
  content ordered by block index.
-/

namespace Kyora.Accumulation

/-- `PendingBlock`. -/
structure PendingBlock where
  content : ContentBlock
  partialJson : String
  closed : Bool

/-- `Accumulator`. The blocks are a `BTreeMap`. -/
structure Accumulator where
  header : Option (Option String × String)
  blocks : SortedMap Nat PendingBlock
  usage : Usage
  usageIterations : List UsageIteration
  stopReason : Option StopReason
  stopped : Bool
  invalidToolInputs : List Nat

/-- `Accumulator::new`. -/
def Accumulator.new : Accumulator := ⟨none, .empty, 0, [], none, false, []⟩

/-- `ModelResponse` with the fields that describe the stream it came from. -/
structure CompleteResponse extends ModelResponse where
  id : Option String
  model : String
  usageIterations : List UsageIteration

/-- The content of a block that has just started. -/
def startContent : BlockStart → ContentBlock
  | .text => .text ""
  | .thinking => .thinking "" none
  | .toolUse id name => .toolUse id name .null
  | .opaqueBlock provider kind raw => .opaqueBlock provider kind raw

/-- One counter of a message delta. Zero means no update. -/
def updated (current latest : Nat) : Nat := if latest ≠ 0 then latest else current

/-- The counters after a message delta. -/
def updateUsage (current latest : Usage) : Usage where
  inputTokens := updated current.inputTokens latest.inputTokens
  outputTokens := updated current.outputTokens latest.outputTokens
  cacheCreationInputTokens :=
    updated current.cacheCreationInputTokens latest.cacheCreationInputTokens
  cacheReadInputTokens := updated current.cacheReadInputTokens latest.cacheReadInputTokens

/-- `protocol`. -/
def protocol (message : String) : ProviderError := .protocol message

/-- `open_block`. -/
def Accumulator.openBlock (acc : Accumulator) (index : Nat) :
    Except ProviderError PendingBlock :=
  match acc.blocks.get? index with
  | none => .error (protocol s!"unknown block index {index}")
  | some block =>
    if block.closed then .error (protocol s!"block {index} is already stopped") else .ok block

/-- Writes a changed block back. -/
def Accumulator.setBlock (acc : Accumulator) (index : Nat) (block : PendingBlock) :
    Accumulator :=
  { acc with blocks := acc.blocks.modify index fun _ => block }

section Push

-- `serde_json::from_str`, strict on the whole text.
variable (fromStr : String → Option Json)

/-- The input of a tool-use block that stops, and whether it is invalid. -/
def toolInput (partialJson : String) : Json × Bool :=
  if partialJson = "" then (.object [], false)
  else
    match fromStr partialJson with
    | some value => (value, false)
    | none => (.string partialJson, true)

/-- A block that stops, and whether its tool input is invalid. -/
def PendingBlock.stop (block : PendingBlock) : PendingBlock × Bool :=
  match block.content with
  | .toolUse id name _ =>
    let (input, invalid) := toolInput fromStr block.partialJson
    ({ block with content := .toolUse id name input, closed := true }, invalid)
  | _ => ({ block with closed := true }, false)

/-- The match of `push` on its event. -/
def Accumulator.onEvent (acc : Accumulator) : StreamEvent → Except ProviderError Accumulator
  | .messageStart id model usage =>
    if acc.header.isSome then .error (protocol "duplicate message start")
    else .ok { acc with header := some (id, model), usage := usage }
  | .blockStart index block =>
    match acc.blocks.get? index with
    | none =>
      .ok { acc with blocks := acc.blocks.insert index ⟨startContent block, "", false⟩ }
    | some _ => .error (protocol s!"duplicate block index {index}")
  | .textDelta index text => do
    let block ← acc.openBlock index
    match block.content with
    | .text existing => .ok (acc.setBlock index { block with content := .text (existing ++ text) })
    | _ => .error (protocol s!"text delta for non-text block {index}")
  | .thinkingDelta index thinking => do
    let block ← acc.openBlock index
    match block.content with
    | .thinking existing signature =>
      .ok (acc.setBlock index { block with content := .thinking (existing ++ thinking) signature })
    | _ => .error (protocol s!"thinking delta for non-thinking block {index}")
  | .signatureDelta index signature => do
    let block ← acc.openBlock index
    match block.content with
    | .thinking thinking existing =>
      .ok (acc.setBlock index
        { block with content := .thinking thinking (some (existing.getD "" ++ signature)) })
    | _ => .error (protocol s!"signature delta for non-thinking block {index}")
  | .toolInputDelta index partialJson => do
    let block ← acc.openBlock index
    match block.content with
    | .toolUse _ _ _ =>
      .ok (acc.setBlock index { block with partialJson := block.partialJson ++ partialJson })
    | _ => .error (protocol s!"tool input delta for non-tool block {index}")
  | .blockStop index => do
    let block ← acc.openBlock index
    let (block, invalid) := block.stop fromStr
    let acc := acc.setBlock index block
    .ok { acc with
      invalidToolInputs :=
        if invalid then acc.invalidToolInputs ++ [index] else acc.invalidToolInputs }
  | .messageDelta stopReason usage =>
    .ok { acc with
      stopReason := stopReason.or acc.stopReason
      usage := updateUsage acc.usage usage }
  | .usageSnapshot model usage iterations =>
    .ok { acc with
      header := acc.header.map fun header => (header.1, model)
      usage := usage
      usageIterations := iterations }
  | .messageStop =>
    if acc.blocks.values.any fun block => !block.closed then
      .error (protocol "message stopped with open blocks")
    else .ok { acc with stopped := true }

/-- `push`. -/
def Accumulator.push (acc : Accumulator) (event : StreamEvent) :
    Except ProviderError Accumulator :=
  if acc.stopped then .error (protocol "event after message stop")
  else
    match acc.header, event with
    | none, .messageStart id model usage => acc.onEvent fromStr (.messageStart id model usage)
    | none, _ => .error (protocol "event before message start")
    | some _, event => acc.onEvent fromStr event

end Push

/-- `finish`. -/
def Accumulator.finish (acc : Accumulator) : Except ProviderError CompleteResponse :=
  if !acc.stopped then .error (protocol "stream ended before message stop")
  else
    match acc.header with
    | none => .error (protocol "missing message start")
    | some (id, model) =>
      match acc.stopReason with
      | none => .error (protocol "missing stop reason")
      | some stopReason =>
        .ok { id, model, content := acc.blocks.values.map PendingBlock.content,
              stopReason, usage := acc.usage, usageIterations := acc.usageIterations }

/-- Pushes all events and finishes: the response, and the indices of the tool
    uses whose input failed to parse. -/
def accumulate (fromStr : String → Option Json) (events : List StreamEvent) :
    Except ProviderError (CompleteResponse × List Nat) := do
  let acc ← events.foldlM (Accumulator.push fromStr) Accumulator.new
  let response ← acc.finish
  return (response, acc.invalidToolInputs)

end Kyora.Accumulation
