import Kyora.Protocol
import Kyora.Text
import Kyora.Attempts.Retry
import Kyora.Framework.System
import Kyora.Mailbox.Basic

/-! # The conversation of one agent

  `Runtime::agent` as a state machine over the history it records. The
  provider, the tools, the mailbox and the clock are the environment: a label
  carries what the loop reads from them at that point, so that every response,
  tool outcome, delivery, cancellation and deadline is one of the runs.
-/

namespace Kyora.Conversation

open Mailbox (Batch)

/-! ### Tools -/

structure Tool where
  /-- `tool::validate` against what the toolset asks of this tool's input. -/
  check : Json → Except String Unit
  /-- The runtime cuts this tool's result. -/
  truncated : Bool

/-- The frozen tools of an agent, by name. -/
structure Toolset where
  get : String → Option Tool

/-- Validates tool existence and its arguments. -/
def Toolset.validate (tools : Toolset) (name : String) (input : Json) : Except String Unit :=
  match tools.get name with
  | none => .error ("unknown tool: " ++ name)
  | some tool => tool.check input

/-- The final answer of an agent. -/
inductive Answer where
  | text (text : String)
  /-- Structured answer, preserving JSON bytes. -/
  | value (raw : String)
  deriving DecidableEq, Repr

/-- Tool result, optionally committing an agent answer. -/
structure ToolOutput where
  content : List ToolResultPart
  isError : Bool
  finalAnswer : Option Answer

/-- Concatenates the text parts. -/
def ToolOutput.textContent (o : ToolOutput) : String :=
  String.join (o.content.map fun
    | .text text => text)

/-- An error text result. -/
def ToolOutput.error (content : String) : ToolOutput := ⟨[.text content], true, none⟩

/-! ### Configuration -/

/-- One agent, with the serializer and parser of JSON texts. -/
structure Config where
  limits : Limits
  model : String
  system : String
  task : String
  tools : Toolset
  specs : List ToolSpec
  options : RequestOptions
  maxTurns : Nat
  /-- `tool::validate` against the output schema, if the agent has one. -/
  output : Option (Json → Except String Unit)
  names : NodeId → String
  print : Json → String
  parse : String → Except String Json

/-- Why the node must stop: `NodeCtx::cancel_status`. -/
inductive Stop where
  | timeout | cancelled
  deriving DecidableEq, Repr

def Stop.status : Stop → Status
  | .timeout => .timeout
  | .cancelled => .cancelled

/-- Why an answer is not accepted from a stopped node. -/
def Stop.reason : Stop → String
  | .timeout => "the agent had timed out"
  | .cancelled => "the agent was cancelled"

inductive CallError where
  | budget
  | provider (error : ProviderError)
  | internal

/-- The status of a node whose request failed. -/
def statusFor (stop : Stop) : CallError → Status
  | .budget => .budgetExhausted
  | .provider .cancelled => stop.status
  | .provider (.contextTooLarge _) => .contextExhausted
  | .provider (.http 413 _ _) => .contextExhausted
  | _ => .failed

def submitReminder : String :=
  "You have not submitted a result. Call submit_result with a result that matches its " ++
    "input schema; ending your turn again without it fails the task."

/-! ### State -/

/-- The tool uses of one assistant message, as the loop goes over them. -/
structure Turn where
  assistant : Message
  stopReason : StopReason
  /-- Raw inputs of the invalid calls, by id. -/
  invalid : List (String × String)
  pending : List ToolUse
  results : List ContentBlock
  finalAnswer : Option Answer

inductive Pc where
  /-- The task is about to be recorded. -/
  | opening
  /-- At the start of an iteration. -/
  | head
  /-- The model is answering a request of `sent` messages. -/
  | requesting (sent : Nat)
  | tools (turn : Turn)
  /-- The results are recorded, and the loop decides how to go on. -/
  | deciding (turn : Turn)
  /-- Waiting at the end of a turn. -/
  | idling (assistant : Message)
  | ended (status : Status)
  /-- A record was refused, something panicked, or the future was dropped. -/
  | aborted

/-- A request with the estimator basis it was prepared with. -/
structure Prepared where
  request : ModelRequest
  previous : Option (Usage × Nat)

structure State where
  history : List Message
  turns : Nat
  answer : Answer
  previous : Option (Usage × Nat)
  outputCap : Nat
  invalidRetry : Bool
  reminded : Bool
  pc : Pc
  /-- Every request so far, oldest first. -/
  requests : List Prepared

/-! ### Labels -/

/-- A `stop` is what `stopped` and the deadline say where they are read; a
    `batch` is what the mailbox hands over where it is asked. -/
inductive Label where
  | opened (batch : Batch)
  | request (stop : Option Stop)
  | failed (error : CallError) (stop : Stop)
  | responded (response : ModelResponse) (invalid : List (String × String))
  /-- The next tool use is answered; `output` is what a started tool returns, or
      the cancellation that overtook it, and `late` is read afterwards. -/
  | tool (stop : Option Stop) (output : ToolOutput) (late : Option Stop)
  | results (stop : Option Stop) (batch : Batch)
  | decide (stop : Option Stop) (batch : Batch)
  /-- The wait at the end of a turn is over. -/
  | idled (found : Option Batch) (stop : Option Stop) (batch : Batch)
  | abort

/-! ### User messages -/

/-- Tells a model how many messages are still waiting. -/
def more (count : Nat) : String :=
  if count = 1 then "1 more message waiting; it follows at your next turn"
  else toString count ++ " more messages waiting; they follow at your next turn"

def Config.render (cfg : Config) (e : Envelope) : String :=
  Kyora.render e.kind e.from_ (cfg.names e.from_) e.status e.body

/-- One delivery as text blocks after `content`. -/
def deliver (cfg : Config) (content : List ContentBlock) (batch : Batch) : Message where
  role := .user
  content := content ++ batch.taken.map (fun message => .text (cfg.render message)) ++
    if batch.queued > 0 then [.text ("[" ++ more batch.queued ++ "]")] else []

/-- A user message, with the pending messages when `deliverable` is set. -/
def userTurn (cfg : Config) (content : List ContentBlock) (deliverable : Bool) (batch : Batch) :
    Message :=
  if deliverable && (!batch.taken.isEmpty || batch.queued > 0) then deliver cfg content batch
  else ⟨.user, content⟩

/-! ### Tool results -/

/-- The calls whose input the toolset refuses join those that were malformed. -/
def collectInvalid (cfg : Config) (uses : List ToolUse) (invalid : List (String × String)) :
    List (String × String) :=
  uses.foldl (fun invalid use =>
    if (cfg.tools.get use.name).isSome && !(cfg.tools.validate use.name use.input).isOk &&
        (invalid.lookup use.id).isNone then
      invalid ++ [(use.id, cfg.print use.input)]
    else invalid) invalid

/-- The inputs of invalid calls are replaced by an empty object. -/
def clearInvalid (invalid : List (String × String)) : ContentBlock → ContentBlock
  | .toolUse id name input =>
    if (invalid.lookup id).isSome then .toolUse id name (.object []) else .toolUse id name input
  | block => block

/-- The answer to a tool use, and whether it stays whole. `none` is a panic. -/
def toolOutput (cfg : Config) (t : Turn) (use : ToolUse) (stop : Option Stop)
    (output : ToolOutput) : Option (ToolOutput × Bool) :=
  match t.invalid.lookup use.id with
  | some raw => some (.error (cfg.print (.object [("INVALID_JSON", .string raw)])), false)
  | none =>
    if t.stopReason ≠ .toolUse then
      some (.error ("not executed: " ++ t.stopReason.asStr), false)
    else if t.finalAnswer.isSome then
      some (.error "skipped: final answer already committed", false)
    else if stop.isSome then some (.error "cancelled", false)
    else match cfg.tools.validate use.name use.input with
      | .error error => some (.error error, false)
      | .ok () => (cfg.tools.get use.name).map fun tool => (output, !tool.truncated)

/-- A node with an output schema finishes only with a JSON value that the
    schema accepts and that fits one message body. -/
def accept (cfg : Config) (answer : Answer) : Except String Answer :=
  match cfg.output with
  | none => .ok answer
  | some schema =>
    match answer with
    | .text _ => .error "a task with an output schema finishes only through submit_result"
    | .value raw =>
      match cfg.parse raw with
      | .error error => .error ("result is not JSON: " ++ error)
      | .ok value =>
        match schema value with
        | .error error => .error ("result does not match the output schema: " ++ error)
        | .ok () =>
          if raw.length > cfg.limits.messageChars then
            .error ("result exceeds " ++ toString cfg.limits.messageChars ++ " characters")
          else .ok answer

/-- Takes a committed answer, or says in the result why it is not accepted. -/
def commit (cfg : Config) (t : Turn) (late : Option Stop) (result : ToolOutput) :
    ToolOutput × Option Answer :=
  match t.finalAnswer, result.finalAnswer with
  | none, some committed =>
    let result := { result with finalAnswer := none }
    let accepted : Except String Answer := match late with
      | some stop => .error stop.reason
      | none => accept cfg committed
    match accepted with
    | .ok committed => (result, some committed)
    | .error reason =>
      let note : ToolResultPart := .text ("\nfinal answer not accepted: " ++ reason)
      ({ result with isError := true, content := result.content ++ [note] }, none)
  | earlier, _ => (result, earlier)

/-- The block that answers a tool use. -/
def toolResult (cfg : Config) (use : ToolUse) (whole : Bool) (result : ToolOutput) :
    ContentBlock :=
  let text := result.textContent
  let content := if whole then text else truncate text cfg.limits.toolOutputChars
  .toolResult use.id [.text content] result.isError

/-! ### Steps -/

/-- The request of the next iteration. -/
def State.nextRequest (cfg : Config) (s : State) : ModelRequest where
  model := cfg.model
  system := some cfg.system
  messages := s.history
  tools := cfg.specs
  maxTokens := s.outputCap
  options := cfg.options

/-- Records a message. -/
def State.message (s : State) (m : Message) : State := { s with history := s.history ++ [m] }

/-- The start of an iteration. -/
def stepRequest (cfg : Config) (s : State) (stop : Option Stop) : State :=
  match stop with
  | some stop => { s with pc := .ended stop.status }
  | none =>
    if s.turns ≥ cfg.maxTurns then { s with pc := .ended .maxTurns }
    else { s with
      pc := .requesting s.history.length
      requests := s.requests ++ [⟨s.nextRequest cfg, s.previous⟩] }

/-- `output_cap.saturating_mul(2)`. -/
def doubleCap (cap : Nat) : Nat := min (cap * 2) (2 ^ 32 - 1)

/-- A response is recorded, or asked for once more with a larger cap. -/
def stepResponded (cfg : Config) (s : State) (sent : Nat) (response : ModelResponse)
    (invalid : List (String × String)) : State :=
  let invalid := collectInvalid cfg (Message.toolUses ⟨.assistant, response.content⟩) invalid
  if !invalid.isEmpty && response.stopReason == .maxTokens && !s.invalidRetry then
    { s with invalidRetry := true, outputCap := doubleCap s.outputCap, pc := .head }
  else
    let assistant : Message := ⟨.assistant, response.content.map (clearInvalid invalid)⟩
    { s.message assistant with
      invalidRetry := false
      outputCap := cfg.limits.maxOutputTokens
      previous := some (response.usage, sent)
      turns := s.turns + 1
      answer := if assistant.text.isEmpty then s.answer else .text assistant.text
      pc := .tools {
        assistant, invalid, stopReason := response.stopReason
        pending := assistant.toolUses, results := [], finalAnswer := none } }

/-- One round of the loop over the tool uses. -/
def stepTool (cfg : Config) (s : State) (t : Turn) (stop : Option Stop) (output : ToolOutput)
    (late : Option Stop) : Option State :=
  match t.pending with
  | [] => none
  | use :: pending => (toolOutput cfg t use stop output).map fun (result, whole) =>
    let (result, finalAnswer) := commit cfg t late result
    { s with pc := .tools { t with
      pending, finalAnswer
      results := t.results ++ [toolResult cfg use whole result] } }

/-- The stop reasons another request may follow. -/
def continues : StopReason → Bool
  | .toolUse | .pauseTurn | .maxTokens => true
  | _ => false

/-- All tool uses are answered: their results are recorded. -/
def stepResults (cfg : Config) (s : State) (t : Turn) (stop : Option Stop) (batch : Batch) :
    Option State :=
  match t.pending with
  | _ :: _ => none
  | [] =>
    if t.results.isEmpty then some { s with pc := .deciding t }
    else
      let deliverable := t.finalAnswer.isNone && stop.isNone && s.turns < cfg.maxTurns &&
        continues t.stopReason
      some { s.message (userTurn cfg t.results deliverable batch) with pc := .deciding t }

/-- The match on the stop reason. -/
def stepDecide (cfg : Config) (s : State) (t : Turn) (stop : Option Stop) (batch : Batch) :
    State :=
  match t.finalAnswer, stop with
  | some value, _ => { s with answer := value, pc := .ended .completed }
  | none, some stop => { s with pc := .ended stop.status }
  | none, none =>
    match t.stopReason with
    | .toolUse | .pauseTurn => { s with pc := .head }
    | .endTurn =>
      let s := { s with answer := .text t.assistant.text }
      if s.turns ≥ cfg.maxTurns then
        { s with pc := .ended (if cfg.output.isSome then .maxTurns else .completed) }
      else { s with pc := .idling t.assistant }
    | .maxTokens =>
      if t.results.isEmpty then
        { s.message (userTurn cfg [.text "continue"] (s.turns < cfg.maxTurns) batch) with
          pc := .head }
      else { s with pc := .head }
    | .modelContextWindowExceeded => { s with pc := .ended .contextExhausted }
    | .refusal => { s with pc := .ended .refused }
    | _ => { s with pc := .ended .failed }

/-- What follows the wait at the end of a turn. -/
def stepIdled (cfg : Config) (s : State) (assistant : Message) (found : Option Batch)
    (stop : Option Stop) (batch : Batch) : State :=
  match found, stop with
  | some found, _ => { s.message (deliver cfg [] found) with pc := .head }
  | none, some stop => { s with pc := .ended stop.status }
  | none, none =>
    if cfg.output.isNone then { s with pc := .ended .completed }
    else if !s.reminded then
      { s.message (userTurn cfg [.text submitReminder] true batch) with
        reminded := true, pc := .head }
    else
      let message := "ended without calling submit_result"
      let text := assistant.text
      { s with
        answer := .text (if text.isEmpty then message ++ "."
          else message ++ ". Last reply: " ++ text)
        pc := .ended .failed }

def step (cfg : Config) (s : State) : Label → Option State
  | .opened batch =>
    match s.pc with
    | .opening => some { s.message (userTurn cfg [.text cfg.task] true batch) with pc := .head }
    | _ => none
  | .request stop =>
    match s.pc with
    | .head => some (stepRequest cfg s stop)
    | _ => none
  | .failed error stop =>
    match s.pc with
    | .requesting _ => some { s with pc := .ended (statusFor stop error) }
    | _ => none
  | .responded response invalid =>
    match s.pc with
    | .requesting sent => some (stepResponded cfg s sent response invalid)
    | _ => none
  | .tool stop output late =>
    match s.pc with
    | .tools t => stepTool cfg s t stop output late
    | _ => none
  | .results stop batch =>
    match s.pc with
    | .tools t => stepResults cfg s t stop batch
    | _ => none
  | .decide stop batch =>
    match s.pc with
    | .deciding t => some (stepDecide cfg s t stop batch)
    | _ => none
  | .idled found stop batch =>
    match s.pc with
    | .idling assistant => some (stepIdled cfg s assistant found stop batch)
    | _ => none
  | .abort =>
    match s.pc with
    | .ended _ | .aborted => none
    | _ => some { s with pc := .aborted }

/-- All conversations of one agent. -/
def conversation (cfg : Config) : LTS.System State Label where
  init :=
    { history := []
      turns := 0
      answer := .text ""
      previous := none
      outputCap := cfg.limits.maxOutputTokens
      invalidRetry := false
      reminded := false
      pc := .opening
      requests := [] }
  step := step cfg

end Kyora.Conversation
