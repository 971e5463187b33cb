import Kyora.Attempts.Steps
import Kyora.Conversation.Contract
import Kyora.Inbox.Mail
import Kyora.Inbox.Terminal

/-! # The loop of an agent among everything that runs next to it

  `Runtime::agent` with what it reads: the node's token, its owners and its
  deadline, the mailbox with the tasks that use it, and its model calls among
  those of the other nodes. The conversation is the one of `Conversation`, the
  mailbox that of `Inbox` and the calls those of `Attempts`; an act is a step
  of one of them with what the loop looks at there. Between two looks anything
  may happen.
-/

namespace Kyora.Loop

open Conversation (Stop Turn ToolOutput Answer CallError)
open Mailbox (Batch)

/-! ### Configuration -/

structure Config where
  me : NodeId
  agent : Conversation.Config
  retry : RetryPolicy
  /-- Tools whose effect is mutating: they finish even when cancelled. -/
  mutating : String → Bool

def Config.inbox (cfg : Config) : Inbox.Config := ⟨cfg.me, cfg.agent.limits, cfg.agent.names⟩

def Config.attempts (cfg : Config) : Attempts.Config := ⟨cfg.agent.limits, cfg.retry⟩

/-! ### Flags -/

/-- What stops a node. Each flag is set once and for all. -/
structure Flags where
  /-- The node's token is cancelled. -/
  token : Bool
  /-- An external owner is cancelled. -/
  owner : Bool
  /-- The deadline has passed. -/
  expired : Bool
  deriving DecidableEq, Repr

/-- The node must stop. -/
def Flags.must (f : Flags) : Bool := f.token || f.owner || f.expired

/-- What an await next to the token and the deadline can notice. -/
def Flags.noticed (f : Flags) : Bool := f.token || f.expired

def Flags.cancelStatus (f : Flags) : Stop := if f.expired then .timeout else .cancelled

/-- `stopped`, or past the deadline: a cancelled owner cancels the token. -/
def Flags.look (f : Flags) : Flags × Option Stop :=
  let f := { f with token := f.token || f.owner }
  (f, if f.noticed then some f.cancelStatus else none)

/-! ### State -/

/-- Where the loop is within a step of the conversation. -/
inductive Doing where
  | thinking
  /-- The model call with this index is under way. -/
  | calling (k : Nat)
  /-- A tool is running. -/
  | running
  /-- `idle` waits for a change. -/
  | waiting
  /-- `idle` returned a delivery. -/
  | found (batch : Batch)
  /-- `idle` returned because nothing more can arrive. -/
  | quiet
  /-- `idle` returned because the node must stop. -/
  | noticed

structure State where
  conv : Conversation.State
  inbox : Inbox.State
  attempts : Attempts.State
  flags : Flags
  doing : Doing
  /-- The node was seen stopped, or past its deadline. -/
  seen : Bool
  /-- The first answer that was accepted. -/
  accepted : Option Answer
  /-- Ids of the tool uses that were executed, oldest first. -/
  started : List String
  /-- Calls of this node whose request was dispatched, oldest first. -/
  dispatched : List Nat

/-- Reads the flags where the loop asks for them. -/
def State.look (s : State) (asked : Bool) : State × Option Stop :=
  if asked then
    let r := s.flags.look
    ({ s with flags := r.1, seen := s.seen || r.2.isSome }, r.2)
  else (s, none)

/-! ### Acts -/

inductive Act where
  | cancel
  | cancelOwner
  /-- The watcher forwards an owner's cancellation or the deadline. -/
  | forward
  | expire
  /-- A step on the mailbox, of another task or of the running tool. -/
  | mail (l : Inbox.Label)
  /-- A step of a model call, of this node or of another. -/
  | attempt (l : Attempts.Label)
  /-- The await of a streaming request notices that the node must stop. -/
  | streamCancelled
  | opened
  | request
  | answered (response : ModelResponse) (invalid : List (String × String))
  /-- The model call failed. -/
  | failed
  | toolStart
  | toolEnd (output : ToolOutput)
  /-- The node is stopped while a tool that may be dropped is running. -/
  | overtaken
  | results
  | decide
  /-- `idle` asks the mailbox. -/
  | poll
  | idleCancelled
  | idled
  | abort

/-- Steps that other tasks make on the mailbox. -/
def byOthers : Inbox.Label → Bool
  | .accept _ | .deliver _ | .join _ | .publish _ | .notify _ _ | .conclude _ | .wake _ => true
  | .register _ kin => kin ≠ .node
  | _ => false

/-- Steps that a tool of the agent makes: it spawns, waits, receives, reports. -/
def byTool : Inbox.Label → Bool
  | .register _ _ | .expect _ | .stage _ _ | .take _ | .charge _ | .saw _ => true
  | _ => false

/-! ### Model calls -/

/-- The loop of a call looks here before it goes on. The look before the model's
    limits are asked for is left to the await that follows it. -/
def looksFirst : Attempts.Pc → Bool
  | .admitted | .dispatching | .failed _ => true
  | _ => false

/-- What a call that has looked goes on with. -/
def obeys (stop : Option Stop) : Attempts.Label → Bool
  | .cancelled _ | .unsent _ => stop.isSome
  | .reserve _ | .dispatch _ | .retry _ _ => stop.isNone
  | _ => true

def isCancelled : Attempts.Label → Bool
  | .cancelled _ => true
  | _ => false

/-- The calls a step dispatches. -/
def dispatches : Attempts.Label → List Nat
  | .dispatch k => [k]
  | _ => []

/-- A step of the call `c` of this node. -/
def stepCall (cfg : Config) (s : State) (c : Attempts.Call) (l : Attempts.Label) :
    Option State :=
  if looksFirst c.pc then
    let r := s.look true
    if obeys r.2 l then
      (Attempts.step cfg.attempts s.attempts l).map fun attempts =>
        { r.1 with attempts, dispatched := s.dispatched ++ dispatches l }
    else none
  else if isCancelled l then
    if s.flags.noticed then
      (Attempts.step cfg.attempts s.attempts l).map fun attempts =>
        { s with attempts, seen := true }
    else none
  else (Attempts.step cfg.attempts s.attempts l).map fun attempts => { s with attempts }

/-- A step that is about no call: other nodes start theirs. -/
def isElsewhere (cfg : Config) : Attempts.Label → Bool
  | .call node _ => node ≠ cfg.me
  | _ => true

def stepAttempt (cfg : Config) (s : State) (l : Attempts.Label) : Option State :=
  match l.callId with
  | none =>
    if isElsewhere cfg l then
      (Attempts.step cfg.attempts s.attempts l).map fun attempts => { s with attempts }
    else none
  | some k =>
    (s.attempts.calls[k]?).bind fun c =>
      if c.node ≠ cfg.me then
        (Attempts.step cfg.attempts s.attempts l).map fun attempts => { s with attempts }
      else
        match s.doing with
        | .calling j => if j = k then stepCall cfg s c l else none
        | _ => none

/-- The error of a call that failed. `none` where the agent does not go on to
    a status: the sink refuses the record of the error as well, or a panic
    unwinds. -/
def callError : Attempts.Exit → Option CallError
  | .cancelled => some (.provider .cancelled)
  | .budget => some .budget
  | .provider error => some (.provider error)
  | .response | .trace | .panicked | .dropped => none

/-- How the call under way has ended. -/
def State.exit (s : State) : Option Attempts.Exit :=
  match s.doing with
  | .calling k =>
    (s.attempts.calls[k]?).bind fun c =>
      match c.pc with
      | .ended exit => some exit
      | _ => none
  | _ => none

/-! ### The loop -/

/-- A delivery of everything that fits, where one is wanted. -/
def State.delivery (cfg : Config) (s : State) (wanted : Bool) :
    Option (Inbox.State × Batch) :=
  if wanted then
    (Mailbox.take s.inbox.box cfg.agent.limits.deliveryChars (fun _ => true)
      (Envelope.size cfg.agent.names)).map fun r =>
        (s.inbox.handOver cfg.inbox r.1 r.2, r.2)
  else some (s.inbox, ⟨[], 0, 0⟩)

/-- A step of the conversation after which the loop thinks on. -/
def State.converse (cfg : Config) (s : State) (l : Conversation.Label) : Option State :=
  (Conversation.step cfg.agent s.conv l).map fun conv => { s with conv, doing := .thinking }

/-- The same with a delivery where one is wanted. -/
def State.converseWith (cfg : Config) (s : State) (wanted : Bool)
    (l : Batch → Conversation.Label) : Option State :=
  (s.delivery cfg wanted).bind fun r => { s with inbox := r.1 }.converse cfg (l r.2)

/-- The start of an iteration, and of the model call it makes. -/
def stepRequest (cfg : Config) (s : State) : Option State :=
  let r := s.look true
  (r.1.converse cfg (.request r.2)).bind fun t =>
    match t.conv.pc with
    | .requesting _ =>
      (Attempts.step cfg.attempts t.attempts (.call cfg.me t.conv.outputCap)).map fun attempts =>
        { t with
          inbox := { t.inbox with box := Mailbox.newTurn t.inbox.box, items := [] }
          attempts
          doing := .calling t.attempts.calls.length }
    | _ => some t

/-- The loop gets to the question whether the node is stopped. -/
def asksToStart (t : Turn) (use : ToolUse) : Bool :=
  (t.invalid.lookup use.id).isNone && t.stopReason == .toolUse && t.finalAnswer.isNone

/-- The next tool use is started, or answered by the loop itself. -/
def stepToolStart (cfg : Config) (s : State) (t : Turn) : Option State :=
  match t.pending with
  | [] => none
  | use :: _ =>
    let r := s.look (asksToStart t use)
    if Conversation.starts cfg.agent t use r.2 then
      some { r.1 with doing := .running, started := s.started ++ [use.id] }
    else r.1.converse cfg (.tool r.2 (.error "") none)

/-- The answer of the turn, once one was accepted. -/
def answerOf : Conversation.Pc → Option Answer
  | .tools t | .deciding t => t.finalAnswer
  | _ => none

/-- A running tool returns. -/
def stepToolEnd (cfg : Config) (s : State) (output : ToolOutput) : Option State :=
  let r := s.look output.finalAnswer.isSome
  (r.1.converse cfg (.tool none output r.2)).map fun t =>
    { t with accepted := answerOf t.conv.pc }

def stepOvertaken (cfg : Config) (s : State) (t : Turn) : Option State :=
  match t.pending with
  | [] => none
  | use :: _ =>
    if s.flags.noticed && !cfg.mutating use.name then
      { s with flags := { s.flags with token := true }, seen := true }.converse cfg
        (.tool none (.error "cancelled") none)
    else none

def stepResults (cfg : Config) (s : State) (t : Turn) : Option State :=
  let r := s.look (!t.results.isEmpty && t.finalAnswer.isNone)
  let wanted := !t.results.isEmpty && Conversation.deliverable cfg.agent s.conv t r.2
  r.1.converseWith cfg wanted (.results r.2)

def stepDecide (cfg : Config) (s : State) (t : Turn) : Option State :=
  let r := s.look t.finalAnswer.isNone
  let wanted := t.finalAnswer.isNone && r.2.isNone && t.stopReason == .maxTokens &&
    t.results.isEmpty && decide (s.conv.turns < cfg.agent.maxTurns)
  r.1.converseWith cfg wanted (.decide r.2)

/-- `idle` asks the mailbox. An agent with a contract keeps it open. -/
def stepPoll (cfg : Config) (s : State) : Option State :=
  (Mailbox.idle s.inbox.box cfg.agent.output.isNone cfg.agent.limits.deliveryChars
    (Envelope.size cfg.agent.names)).map fun r =>
      match r.2 with
      | .deliver batch =>
        { s with inbox := s.inbox.handOver cfg.inbox r.1 batch, doing := .found batch }
      | .wait => { s with inbox := { s.inbox with box := r.1 }, doing := .waiting }
      | .done => { s with inbox := { s.inbox with box := r.1 }, doing := .quiet }

/-- What follows `idle`. -/
def stepIdled (cfg : Config) (s : State) : Option State :=
  match s.doing with
  | .found batch => s.converse cfg (.idled (some batch) none ⟨[], 0, 0⟩)
  | .quiet | .noticed =>
    let r := s.look true
    let wanted := r.2.isNone && cfg.agent.output.isSome && !s.conv.reminded
    r.1.converseWith cfg wanted (.idled none r.2)
  | _ => none

/-- The future is dropped, a record is refused or something panics. A model
    call is left before that. -/
def stepAbort (cfg : Config) (s : State) : Option State :=
  match s.doing with
  | .calling _ =>
    match s.exit with
    | some .trace | some .panicked | some .dropped => s.converse cfg .abort
    | _ => none
  | _ => s.converse cfg .abort

def step (cfg : Config) (s : State) : Act → Option State
  | .cancel => some { s with flags := { s.flags with token := true } }
  | .cancelOwner => some { s with flags := { s.flags with owner := true } }
  | .forward =>
    if s.flags.owner || s.flags.expired then
      some { s with flags := { s.flags with token := true } }
    else none
  | .expire => some { s with flags := { s.flags with expired := true } }
  | .mail l =>
    match s.doing with
    | .running =>
      if byOthers l || byTool l then
        (Inbox.step cfg.inbox s.inbox l).map fun inbox => { s with inbox }
      else none
    | _ =>
      if byOthers l then
        (Inbox.step cfg.inbox s.inbox l).map fun inbox => { s with inbox }
      else none
  | .attempt l => stepAttempt cfg s l
  | .streamCancelled =>
    match s.doing with
    | .calling k =>
      if s.flags.noticed && (s.attempts.calls[k]?).map Attempts.Call.pc = some .streaming then
        some { s with seen := true }
      else none
    | _ => none
  | .opened =>
    match s.doing, s.conv.pc with
    | .thinking, .opening => s.converseWith cfg true .opened
    | _, _ => none
  | .request =>
    match s.doing, s.conv.pc with
    | .thinking, .head => stepRequest cfg s
    | _, _ => none
  | .answered response invalid =>
    match s.exit with
    | some .response => s.converse cfg (.responded response invalid)
    | _ => none
  | .failed =>
    match s.exit.bind callError with
    | some error => s.converse cfg (.failed error s.flags.cancelStatus)
    | none => none
  | .toolStart =>
    match s.doing, s.conv.pc with
    | .thinking, .tools t => stepToolStart cfg s t
    | _, _ => none
  | .toolEnd output =>
    match s.doing with
    | .running => stepToolEnd cfg s output
    | _ => none
  | .overtaken =>
    match s.doing, s.conv.pc with
    | .running, .tools t => stepOvertaken cfg s t
    | _, _ => none
  | .results =>
    match s.doing, s.conv.pc with
    | .thinking, .tools t => stepResults cfg s t
    | _, _ => none
  | .decide =>
    match s.doing, s.conv.pc with
    | .thinking, .deciding t => stepDecide cfg s t
    | _, _ => none
  | .poll =>
    match s.doing, s.conv.pc with
    | .thinking, .idling _ | .waiting, .idling _ => stepPoll cfg s
    | _, _ => none
  | .idleCancelled =>
    match s.doing with
    | .waiting =>
      if s.flags.noticed then some { s with seen := true, doing := .noticed } else none
    | _ => none
  | .idled => stepIdled cfg s
  | .abort => stepAbort cfg s

/-- All runs of the loop, with every placement of what happens next to it. -/
def loop (cfg : Config) : LTS.System State Act where
  init :=
    { conv := (Conversation.conversation cfg.agent).init
      inbox := .init
      attempts := (Attempts.attempts cfg.attempts).init
      flags := ⟨false, false, false⟩
      doing := .thinking
      seen := false
      accepted := none
      started := []
      dispatched := [] }
  step := step cfg

end Kyora.Loop
