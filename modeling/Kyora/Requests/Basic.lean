import Kyora.Agents.Directory
import Kyora.Framework.System
import Kyora.Mailbox.Basic
import Kyora.Trace.Event
import Kyora.Tree.Steps

/-! # Requests of a node

  The three requests that start owned work: a child agent, a leaf completion
  and a message. Each checks everything under the work mutex of the caller, so
  it is one function on the state; what an accepted request started then runs
  on its own, one step of a task at a time.
-/

namespace Kyora.Requests

open Tree (Config Node ChildSpec Owner LlmCall)

/-! ### Tasks -/

/-- Where the task of a send stands. -/
inductive Phase where
  /-- It waits for the sender's previous send. -/
  | waiting
  /-- Its send record is being written. -/
  | recording
  /-- The record is acknowledged. -/
  | pushing
  /-- The mailbox was closed, and the record that says so is being written. -/
  | returning
  | done (result : Except RecursionError Nat)

/-- The task of an accepted send. -/
structure Sending where
  message : Trace.Posted
  /-- The recipient's node state. -/
  recipient : Nat
  /-- The task of the sender's previous send. -/
  previous : Option Nat
  phase : Phase

/-- Other owned work. -/
inductive Owned where
  /-- The run of a child, and whether it reports its ending to the parent. -/
  | agent (id : NodeId) (notify : Bool)
  | leaf (id : NodeId)
  /-- A message record or a staged notice. -/
  | record
  deriving DecidableEq

inductive Task where
  | send (x : Sending)
  /-- Once it ended, whether it panicked. -/
  | other (work : Owned) (ended : Option Bool)

def Phase.isDone : Phase → Bool
  | .done _ => true
  | _ => false

def Task.isFinished : Task → Bool
  | .send x => x.phase.isDone
  | .other _ ended => ended.isSome

def Task.panicked : Task → Bool
  | .send _ => false
  | .other _ ended => ended == some true

/-! ### State -/

/-- The owned work of a node. Whether it is closed is kept in `Tree.Node`. -/
structure Work where
  /-- Tasks of the node that were not joined yet, by their numbers. -/
  tasks : List Nat
  /-- The task that turns true once this node's latest accepted send is queued
      or refused. -/
  sent : Option Nat

/-- The runtime as the requests see it. Node states are numbered like their
    nodes. -/
structure State where
  /-- The ledger, the tokens and the nodes. -/
  tree : Tree.State
  directory : Agents.Directory
  /-- The mailboxes by node states. -/
  boxes : Nat → Mailbox.State
  works : Nat → Work
  /-- Every task started so far. -/
  tasks : List Task
  /-- The counter of message ids. -/
  nextMessage : Nat
  panicked : Bool
  /-- The records written so far. -/
  trace : List Trace.TraceEvent

/-- The send that a task runs. -/
def State.sending (s : State) (k : Nat) : Option Sending :=
  match s.tasks[k]? with
  | some (.send x) => some x
  | _ => none

def State.setSending (s : State) (k : Nat) (x : Sending) : State :=
  { s with tasks := s.tasks.set k (.send x) }

def State.setBox (s : State) (b : Nat) (box : Mailbox.State) : State :=
  { s with boxes := Function.update s.boxes b box }

/-- `emit`, which may fail. -/
def State.emit (s : State) (event : Trace.TraceEvent) (written : Bool) : State :=
  { s with trace := s.trace ++ if written then [event] else [] }

/-- `own`: the task is started, and the finished tasks of the node are joined. -/
def State.own (s : State) (i : Nat) (task : Task) : State :=
  let work := s.works i
  { s with
    panicked := s.panicked || work.tasks.any fun k => (s.tasks[k]?).any Task.panicked
    tasks := s.tasks ++ [task]
    works := Function.update s.works i { work with
      tasks := (work.tasks.filter fun k => !(s.tasks[k]?).any Task.isFinished) ++
        [s.tasks.length] } }

/-! ### Requests -/

/-- Who owns a child decides whether its ending is reported to the parent. -/
def notifies : Owner → Bool
  | .node => true
  | .cell _ => false

/-- `NodeCtx::spawn_agent`. `none` is a panic. -/
def spawnAgent (cfg : Config) (s : State) (n : Node) (spec : ChildSpec) (owner : Owner) :
    Option (State × Except RecursionError NodeId) :=
  match Tree.checkOpen s.tree n with
  | (tree, .error e) => some ({ s with tree }, .error e)
  | (tree, .ok ()) =>
    (Tree.spawnAgent cfg tree n spec owner).map fun r =>
      match r with
      | (after, .error e) => ({ s with tree := after }, .error e)
      | (after, .ok id) =>
        let notify := notifies owner
        -- The outcome is received from the task.
        let directory := Agents.register s.directory id (some n.cx.id) (spec.name.getD "") id
          tree.tokens.parents.length (some s.tasks.length)
        let mine := s.boxes n.cx.id
        let box := if notify then Mailbox.expect mine id else mine
        (({ s with tree := after, directory }.setBox n.cx.id box).own n.cx.id
          (.other (.agent id notify) none), .ok id)

/-- `NodeCtx::llm`, up to the start of its task. The two checks before
    `check_open` are those `Tree.llm` makes again. `none` is a panic. -/
def llm (cfg : Config) (s : State) (n : Node) (call : LlmCall) (owner : Nat) :
    Option (State × Except RecursionError NodeId) :=
  if call.maxTokens = some 0 then
    some (s, .error (.invalidRequest "max_tokens must be positive"))
  else
    match Tree.validateModel cfg (call.model.getD cfg.llmModel) with
    | .error e => some (s, .error e)
    | .ok () =>
      match Tree.checkOpen s.tree n with
      | (tree, .error e) => some ({ s with tree }, .error e)
      | (tree, .ok ()) =>
        (Tree.llm cfg tree n call owner).map fun r =>
          match r with
          | (after, .error e) => ({ s with tree := after }, .error e)
          | (after, .ok id) =>
            ({ s with tree := after }.own n.cx.id (.other (.leaf id) none), .ok id)

/-- `NodeCtx::send`, up to the start of its task, with the id of the message. -/
def send (cfg : Config) (s : State) (n : Node) (to_ : NodeId) (body : String) (sentAt : Int) :
    State × Except RecursionError Nat :=
  if cfg.limits.messageChars < body.length then
    (s, .error (.invalidRequest
      ("message exceeds " ++ toString cfg.limits.messageChars ++ " characters")))
  else
    match Tree.checkOpen s.tree n with
    | (tree, .error e) => ({ s with tree }, .error e)
    | (tree, .ok ()) =>
      match Agents.kin s.directory n.cx.id to_ with
      | .error e => ({ s with tree }, .error e)
      | .ok (recipient, spawn) =>
        match Mailbox.reserve (s.boxes recipient) cfg.limits.mailboxCapacity with
        | .error .full => ({ s with tree }, .error (.mailboxFull to_))
        | .error .closed => ({ s with tree }, .error (.agentFinished to_))
        | .ok box =>
          let envelope : Envelope := ⟨s.nextMessage, n.cx.id, to_, .message, body, spawn, none⟩
          let work := s.works n.cx.id
          -- Each send goes after this sender's previous one.
          let task := Task.send ⟨⟨envelope, sentAt⟩, recipient, work.sent, .waiting⟩
          let works := Function.update s.works n.cx.id { work with sent := some s.tasks.length }
          (({ s with tree, works, nextMessage := s.nextMessage + 1 }.setBox recipient box).own
            n.cx.id task, .ok s.nextMessage)

/-! ### The task of a send -/

/-- The watched flag of a previous send is true, or there is none. -/
def State.queued (s : State) : Option Nat → Bool
  | none => true
  | some k => (s.sending k).any fun x => x.phase.isDone

/-- One step of the task of a send. The flag says whether a record it writes
    was written; a failed write does not stop it. -/
def advance (s : State) (k : Nat) (written : Bool) : Option State :=
  (s.sending k).bind fun x =>
    match x.phase with
    | .waiting =>
      if s.queued x.previous then some (s.setSending k { x with phase := .recording }) else none
    | .recording =>
      -- The send record precedes any delivery record.
      some ((s.emit (.messageSent x.message) written).setSending k { x with phase := .pushing })
    | .pushing =>
      (Mailbox.push (s.boxes x.recipient) x.message.envelope).map fun r =>
        match r with
        | (box, .ok ()) =>
          (s.setBox x.recipient box).setSending k
            { x with phase := .done (.ok x.message.envelope.id) }
        | (box, .error _) =>
          (s.setBox x.recipient box).setSending k { x with phase := .returning }
    | .returning =>
      some ((s.emit (.messageUndelivered x.message "recipient ended") written).setSending k
        { x with phase := .done (.error (.agentFinished x.message.envelope.to_)) })
    | .done _ => none

/-! ### The system -/

/-- What else happens to a mailbox. -/
inductive Upkeep where
  | expect (child : NodeId)
  /-- A terminal entry is pushed. -/
  | notice (e : Envelope)
  | take (budget : Nat) (pick : Envelope → Bool) (size : Envelope → Nat)
  | idle (shut : Bool) (budget : Nat) (size : Envelope → Nat)
  | close
  | stage (agent : NodeId)
  | saw (agent : NodeId)
  | charge (cost budget : Nat)
  | newTurn

def Upkeep.apply (box : Mailbox.State) : Upkeep → Option Mailbox.State
  | .expect child => some (Mailbox.expect box child)
  | .notice e => if e.plain then none else (Mailbox.push box e).map Prod.fst
  | .take budget pick size => (Mailbox.take box budget pick size).map Prod.fst
  | .idle shut budget size => (Mailbox.idle box shut budget size).map Prod.fst
  | .close => some (Mailbox.close box).1
  | .stage agent => some (Mailbox.stage box agent).1
  | .saw agent => some (Mailbox.saw box agent)
  | .charge cost budget => some (Mailbox.charge box cost budget).1
  | .newTurn => some (Mailbox.newTurn box)

/-- Steps of the tree that are no part of a request or of a node's end. -/
def isElsewhere : Tree.Label → Bool
  | .check _ (.spawnAgent ..) | .check _ (.llm ..) | .check _ .send | .close _ => false
  | _ => true

inductive Label where
  | spawnAgent (node : NodeId) (spec : ChildSpec) (owner : Owner)
  | llm (node : NodeId) (call : LlmCall) (owner : Nat)
  | send (node to_ : NodeId) (body : String) (sentAt : Int)
  /-- The task of a send takes a step. -/
  | advance (task : Nat) (written : Bool)
  /-- A node records a message or stages a notice. -/
  | own (node : NodeId)
  /-- Other owned work ends. -/
  | ended (task : Nat) (panicked : Bool)
  /-- `join_descendants` closes a node's work and takes its tasks. -/
  | join (node : NodeId)
  /-- One of the tasks taken by `join_descendants` has been awaited. -/
  | joined (task : Nat)
  | tree (l : Tree.Label)
  | mailbox (b : Nat) (u : Upkeep)
  /-- A notice draws from the counter of message ids. -/
  | nextMessage
  /-- Anything else is recorded. -/
  | emit (event : Trace.TraceEvent)

/-- The external owner that a request brings is a token made before. -/
def knowsOwner (s : State) (op : Tree.Op) : Bool := op.owner.all s.tree.knows

def step (cfg : Config) (s : State) : Label → Option State
  | .spawnAgent i spec owner =>
    match s.tree.nodes[i]? with
    | some n =>
      if knowsOwner s (.spawnAgent spec owner) then
        (spawnAgent cfg s n spec owner).map Prod.fst
      else none
    | none => none
  | .llm i call owner =>
    match s.tree.nodes[i]? with
    | some n =>
      if knowsOwner s (.llm call owner) then (llm cfg s n call owner).map Prod.fst else none
    | none => none
  | .send i to_ body sentAt =>
    (s.tree.nodes[i]?).map fun n => (send cfg s n to_ body sentAt).1
  | .advance k written => advance s k written
  | .own i => (s.tree.nodes[i]?).map fun n => s.own n.cx.id (.other .record none)
  | .ended k panicked =>
    match s.tasks[k]? with
    | some (.other work none) =>
      some { s with tasks := s.tasks.set k (.other work (some panicked)) }
    | _ => none
  | .join i =>
    (Tree.step cfg s.tree (.close i)).map fun tree =>
      { s with tree, works := Function.update s.works i { s.works i with tasks := [] } }
  | .joined k =>
    match s.tasks[k]? with
    | some task =>
      if task.isFinished then some { s with panicked := s.panicked || task.panicked } else none
    | none => none
  | .tree l =>
    if isElsewhere l then (Tree.step cfg s.tree l).map fun tree => { s with tree } else none
  | .mailbox b u => (u.apply (s.boxes b)).map (s.setBox b)
  | .nextMessage => some { s with nextMessage := s.nextMessage + 1 }
  | .emit event => some (s.emit event true)

/-- Every run of the nodes of a session with their requests. -/
def requests (cfg : Config) : LTS.System State Label where
  init :=
    { tree := (Tree.system cfg).init
      directory := Agents.register .empty 0 none "root" 0 (Tree.rootNode cfg).cx.cancel none
      boxes := fun _ => .default
      works := fun _ => ⟨[], none⟩
      tasks := []
      nextMessage := 0
      panicked := false
      trace := [] }
  step := step cfg

end Kyora.Requests
