import Kyora.Attempts.Lifecycle
import Kyora.Trace.Event

/-! # Nodes and their owned work

  The life of every node of a run, from its admission to its shutdown, with the
  tasks it owns and the records it writes. A node's tasks run its children and
  leaves and do its message work; they can be added by whoever holds the node's
  context, until its work is closed. A record counts from when it is handed to
  the sink, which writes records in that order.
-/

namespace Kyora.Shutdown

open Attempts (Config Call)
open Trace (TraceEvent NodeStart AttemptStart AttemptEnd)

/-! ### Nodes -/

/-- How the loop of a node came back: with a status and an answer, or with an
    error or a panic. -/
abbrev Result : Type := Option (Status × Conversation.Answer)

/-- Where the task of a node stands. -/
inductive Pc where
  /-- The task was spawned and has not recorded its start. -/
  | admitted
  | running
  /-- The loop is over, and the owned work is still open. -/
  | finished (result : Result)
  /-- The work is closed, and these of its tasks are still to be joined. -/
  | joining (tasks : List Nat) (result : Result)
  /-- The record of the node's end is to be written. -/
  | ending (outcome : AgentOutcome)
  /-- The record is written, and the scope is to be shut down. -/
  | recorded
  | shut

structure Node where
  parent : Option NodeId
  depth : Nat
  /-- An agent, or a leaf. -/
  agent : Bool
  model : String
  pc : Pc
  turns : Nat
  /-- `Work::closed`. -/
  closed : Bool
  /-- `Work::tasks`: the owned tasks that were neither reaped nor joined. -/
  tasks : List Nat
  /-- Every task ever added. -/
  owned : List Nat
  /-- The latest call of its loop. -/
  call : Option Nat

/-- A task that some node owns. -/
structure Task where
  /-- The child or leaf it runs, or none for message work. -/
  node : Option NodeId
  ended : Bool
  panicked : Bool

structure State where
  attempts : Attempts.State
  /-- The nodes by id. -/
  nodes : List Node
  tasks : List Task
  /-- The records of settled attempts that are still to be written, by call. -/
  ends : List (Nat × AttemptEnd)
  trace : List TraceEvent
  /-- Something panicked. -/
  panicked : Bool

/-- The task has ended, by itself or by a panic. -/
def State.ended (s : State) (k : Nat) : Bool := (s.tasks[k]?).any Task.ended

/-- The parent links of the nodes. -/
def State.links (s : State) : Forest.Links := fun i => (s.nodes[i]?).map Node.parent

/-- The ledger. -/
def State.ledger (s : State) : Ledger.State := s.attempts.session.ledger

/-! ### Labels -/

inductive Label where
  /-- A node records its start. -/
  | start (i : NodeId) (payload : NodeStart)
  /-- An assistant turn is admitted. -/
  | turn (i : NodeId)
  /-- A node's loop begins a model call. -/
  | call (i : NodeId) (maxTokens : Nat)
  /-- A call goes on. -/
  | attempt (l : Attempts.Label)
  /-- A call settles its attempt. -/
  | settle (k : Nat) (payload : AttemptEnd)
  /-- Somebody calls `spawn_agent` on a node's context. -/
  | spawnAgent (i : NodeId) (limit : Option Nat) (model : String) (reap : Nat → Bool)
  | llm (i : NodeId) (model : String) (reap : Nat → Bool)
  /-- A send, or a receive, wait or report that leaves records to write. -/
  | send (i : NodeId) (reap : Nat → Bool)
  /-- A node's own loop takes messages at a turn boundary. -/
  | deliver (i : NodeId) (reap : Nat → Bool)
  /-- Any other record. -/
  | note (event : TraceEvent)
  | taskEnds (k : Nat) (panicked : Bool)
  /-- The loop returns, fails or panics. -/
  | finish (i : NodeId) (result : Result) (panicked : Bool)
  /-- `join_descendants` closes the work and takes its tasks. -/
  | close (i : NodeId)
  /-- The next task is joined. -/
  | join (i : NodeId)
  /-- All tasks are joined, and the outcome is made. -/
  | conclude (i : NodeId)
  | record (i : NodeId)
  | shutdown (i : NodeId)

/-- A record that is none of those of the lifecycle. -/
def isNote : TraceEvent → Bool
  | .nodeStart _ | .nodeEnd _ | .attemptStart _ | .attemptEnd _ => false
  | event => !event.ephemeral

/-- The moves of a call that need nothing from the node. -/
def isMove : Attempts.Label → Bool
  | .ledger _ | .call .. | .refused _ | .settle _ => false
  | _ => true

/-! ### Owned work -/

/-- `own`: adds an owned task, and reaps finished ones first. A finished handle
    that still reports pending is kept. -/
def State.own (s : State) (i : NodeId) (n : Node) (task : Task) (reap : Nat → Bool) : State :=
  let reaped := n.tasks.filter fun k => s.ended k && reap k
  { s with
    tasks := s.tasks ++ [task]
    nodes := s.nodes.set i { n with
      tasks := (n.tasks.filter fun k => !(s.ended k && reap k)) ++ [s.tasks.length]
      owned := n.owned ++ [s.tasks.length] }
    panicked := s.panicked || reaped.any fun k => (s.tasks[k]?).any Task.panicked }

/-- A node as `spawn_agent` or `llm` admits it. -/
def newNode (parent : NodeId) (n : Node) (agent : Bool) (model : String) : Node where
  parent := some parent
  depth := n.depth + agent.toNat
  agent := agent
  model := model
  pc := .admitted
  turns := 0
  closed := false
  tasks := []
  owned := []
  call := none

/-- Admits a child agent or a leaf, and owns its task. A refused admission
    changes nothing. -/
def State.admitNode (cfg : Config) (s : State) (i : NodeId) (n : Node) (agent : Bool)
    (limit : Option Nat) (model : String) (reap : Nat → Bool) : Option State :=
  match Ledger.admitChild cfg.limits s.ledger i agent limit with
  | none => none
  | some (_, .error _) => some s
  | some (ledger, .ok id) =>
    let t := s.own i n ⟨some id, false, false⟩ reap
    some { t with
      attempts := { s.attempts with session := { s.attempts.session with ledger } }
      nodes := t.nodes ++ [newNode i n agent model] }

/-- A call on a node's context, which only an agent that has started hands out:
    `check_open` refuses it once the work is closed. -/
def State.onWork (s : State) (i : NodeId) (act : Node → Option State) : Option State :=
  match s.nodes[i]? with
  | none => none
  | some n =>
    match n.agent, n.pc with
    | false, _ | _, .admitted => none
    | true, _ => if n.closed then some s else act n

/-! ### Records -/

/-- The model call of a node's loop is over. -/
def State.idle (s : State) (n : Node) : Bool :=
  n.call.all fun k => (s.attempts.calls[k]?).all fun c =>
    match c.pc with
    | .ended _ => true
    | _ => false

/-- What a settled attempt is recorded with. -/
def attemptEnd (node attempt : Nat) (result : Attempts.Result) (settlement : Ledger.Settlement)
    (payload : AttemptEnd) : AttemptEnd where
  node := node
  attempt := attempt
  requestId := match result with
    | .response _ => payload.requestId
    | .failure _ => none
  outcome := match result with
    | .response _ => "completed"
    | .failure _ => payload.outcome
  charged := settlement.charged
  excess := settlement.excess
  usage := match result with
    | .response usage => some usage
    | .failure _ => none
  stopReason := match result with
    | .response _ => payload.stopReason
    | .failure _ => none
  ms := payload.ms

/-- The record a call writes when it goes on. -/
def State.emitted (s : State) : Attempts.Label → List TraceEvent
  | .emitted k =>
    match s.attempts.calls[k]? with
    | none => []
    | some c =>
      match c.pc, c.guard with
      | .starting, some g =>
        [.attemptStart
          { node := c.node
            attempt := g.reservation.id
            model := ((s.nodes[c.node]?).map Node.model).getD ""
            reserved := g.reservation.tokens
            maxTokens := g.reservation.maxTokens }]
      | .recording _ _, _ => (s.ends.lookup k).toList.map .attemptEnd
      | _, _ => []
  | _ => []

/-- The outcome of a node, with the ledger's accounts at this time. A leaf is
    one turn, and a panic anywhere fails the root. -/
def State.outcome (s : State) (i : NodeId) (n : Node) (result : Result) : Option AgentOutcome :=
  (Ledger.usage s.ledger i).map fun usage =>
    { node := i
      status := if i = 0 && s.panicked then .failed else (result.map Prod.fst).getD .failed
      answer := (result.map Prod.snd).getD (.text "")
      usageSelf := usage.1
      usageSubtree := usage.2
      turns := if n.agent then n.turns else 1 }

/-! ### Steps -/

def State.setNode (s : State) (i : NodeId) (n : Node) : State :=
  { s with nodes := s.nodes.set i n }

/-- A call on the ledger by a node's own task. -/
def State.onLedger (cfg : Config) (s : State) (l : Ledger.Call) : Option State :=
  (Attempts.step cfg s.attempts (.ledger l)).map fun attempts => { s with attempts }

/-- A node's task goes on. -/
def stepNode (cfg : Config) (s : State) (i : NodeId) (n : Node) : Label → Option State
  | .start _ payload =>
    match n.pc with
    | .admitted => some { s.setNode i { n with pc := .running } with
        trace := s.trace ++ [.nodeStart { payload with
          node := i
          parent := n.parent
          depth := n.depth
          kind := if n.agent then "agent" else "llm"
          model := n.model }] }
    | _ => none
  | .turn _ =>
    match n.pc with
    | .running => some (s.setNode i { n with turns := n.turns + 1 })
    | _ => none
  | .call _ maxTokens =>
    match n.pc with
    | .running =>
      if s.idle n then
        (Attempts.step cfg s.attempts (.call i maxTokens)).map fun attempts =>
          { s with attempts }.setNode i { n with call := some s.attempts.calls.length }
      else none
    | _ => none
  | .deliver _ reap =>
    match n.pc with
    | .running => some (s.own i n ⟨none, false, false⟩ reap)
    | _ => none
  | .finish _ result panicked =>
    match n.pc with
    | .running =>
      if s.idle n then
        some { s.setNode i { n with pc := .finished result } with
          panicked := s.panicked || panicked }
      else none
    | _ => none
  | .close _ =>
    match n.pc with
    | .finished result =>
      (s.onLedger cfg (.closeAdmission i)).map fun t =>
        t.setNode i { n with pc := .joining n.tasks result, closed := true, tasks := [] }
    | _ => none
  | .join _ =>
    match n.pc with
    | .joining (k :: rest) result =>
      if s.ended k then
        some { s.setNode i { n with pc := .joining rest result } with
          panicked := s.panicked || (s.tasks[k]?).any Task.panicked }
      else none
    | _ => none
  | .conclude _ =>
    match n.pc with
    | .joining [] result =>
      (s.outcome i n result).map fun outcome => s.setNode i { n with pc := .ending outcome }
    | _ => none
  | .record _ =>
    match n.pc with
    | .ending outcome => some { s.setNode i { n with pc := .recorded } with
        trace := s.trace ++ [.nodeEnd outcome] }
    | _ => none
  | .shutdown _ =>
    match n.pc with
    | .recorded =>
      (s.onLedger cfg (.shutdown i)).map fun t => t.setNode i { n with pc := .shut }
    | _ => none
  | _ => none

/-- A task may end: message work at any time, and the task of a node once that
    node is shut down. -/
def State.mayEnd (s : State) (task : Task) : Bool :=
  !task.ended && task.node.all fun i =>
    match (s.nodes[i]?).map Node.pc with
    | some .shut => true
    | _ => false

def step (cfg : Config) (s : State) : Label → Option State
  | .attempt l =>
    if isMove l then
      (Attempts.step cfg s.attempts l).map fun attempts =>
        { s with attempts, trace := s.trace ++ s.emitted l }
    else none
  | .settle k payload =>
    match s.attempts.calls[k]? with
    | none => none
    | some c =>
      match c.pc, c.guard with
      | .finished result _, some g =>
        match Ledger.settle s.ledger g.reservation result.charge with
        | none => none
        | some (_, settlement) =>
          (Attempts.step cfg s.attempts (.settle k)).map fun attempts =>
            { s with
              attempts
              ends := (k, attemptEnd c.node g.reservation.id result settlement payload) ::
                s.ends.filter (·.1 != k) }
      | _, _ => none
  | .spawnAgent i limit model reap => s.onWork i fun n => s.admitNode cfg i n true limit model reap
  | .llm i model reap => s.onWork i fun n => s.admitNode cfg i n false none model reap
  | .send i reap => s.onWork i fun n => some (s.own i n ⟨none, false, false⟩ reap)
  | .note event => if isNote event then some { s with trace := s.trace ++ [event] } else none
  | .taskEnds k panicked =>
    match s.tasks[k]? with
    | none => none
    | some task =>
      if s.mayEnd task then
        some { s with tasks := s.tasks.set k { task with ended := true, panicked } }
      else none
  | .start i payload => (s.nodes[i]?).bind fun n => stepNode cfg s i n (.start i payload)
  | .turn i => (s.nodes[i]?).bind fun n => stepNode cfg s i n (.turn i)
  | .call i maxTokens => (s.nodes[i]?).bind fun n => stepNode cfg s i n (.call i maxTokens)
  | .deliver i reap => (s.nodes[i]?).bind fun n => stepNode cfg s i n (.deliver i reap)
  | .finish i result panicked =>
    (s.nodes[i]?).bind fun n => stepNode cfg s i n (.finish i result panicked)
  | .close i => (s.nodes[i]?).bind fun n => stepNode cfg s i n (.close i)
  | .join i => (s.nodes[i]?).bind fun n => stepNode cfg s i n (.join i)
  | .conclude i => (s.nodes[i]?).bind fun n => stepNode cfg s i n (.conclude i)
  | .record i => (s.nodes[i]?).bind fun n => stepNode cfg s i n (.record i)
  | .shutdown i => (s.nodes[i]?).bind fun n => stepNode cfg s i n (.shutdown i)

/-- The root, whose task is the run itself. -/
def rootNode (model : String) : Node where
  parent := none
  depth := 0
  agent := true
  model := model
  pc := .admitted
  turns := 0
  closed := false
  tasks := []
  owned := []
  call := none

/-- All runs of a session. -/
def system (cfg : Config) (model : String) : LTS.System State Label where
  init :=
    { attempts := (Attempts.attempts cfg).init
      nodes := [rootNode model]
      tasks := []
      ends := []
      trace := []
      panicked := false }
  step := step cfg

end Kyora.Shutdown
