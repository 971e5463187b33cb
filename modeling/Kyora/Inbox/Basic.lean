import Kyora.Framework.System
import Kyora.Mailbox.Operations
import Kyora.Text

/-! # One mailbox and everyone who uses it

  The mailbox of one agent together with the tasks that work on it: accepted
  sends whose record is still being written, staged notices, the descendants
  whose outcome may be reported here, and the watch version that wakes
  waiters. A label is one atomic step of one task. An operation that wakes
  releases the mutex first, so its wake is a later step of its own.

  The history fields record what happened to every envelope.
-/

namespace Kyora.Inbox

/-! ### Outcomes and notices -/

/-- The constants of a run that concern the mailbox of `me`. -/
structure Config where
  me : NodeId
  limits : Limits
  /-- Names are fixed when an agent is registered, before it sends anything. -/
  names : NodeId → String

/-- A mailbox under the default limits. -/
def defaultConfig : Config := ⟨1, .default, fun _ => "worker"⟩

/-- What a finished agent reports: its status and the text of its answer. -/
structure Outcome where
  node : NodeId
  status : Status
  answer : String
  deriving DecidableEq, Repr

/-- The terminal notice reporting an outcome to `me`. -/
def notice (cfg : Config) (id : Nat) (o : Outcome) : Envelope where
  id := id
  from_ := o.node
  to_ := cfg.me
  kind := .forStatus o.status
  body := truncate o.answer cfg.limits.messageChars
  spawn := some o.node
  status := some o.status

/-- An outcome the way its terminal notice is shown. -/
def renderOutcome (cfg : Config) (o : Outcome) : String :=
  render (.forStatus o.status) o.node (cfg.names o.node) (some o.status)
    (truncate o.answer cfg.limits.messageChars)

theorem notice_plain (cfg : Config) (id : Nat) (o : Outcome) :
    (notice cfg id o).plain = false := by
  simp [notice, Envelope.plain]

/-! ### State -/

/-- How a descendant is owned: by the agent, by one of its cells, or by an
    agent further down. Only a node-owned child posts a notice of its own. -/
inductive Kin where
  | node | cell | deeper
  deriving DecidableEq, Repr

/-- Life of a descendant's task. -/
inductive Phase where
  /-- In the agent directory, its notice not expected yet. -/
  | registered
  | running
  /-- Admission closed; its owned tasks are being joined. -/
  | joining
  /-- The outcome can be read. -/
  | published (o : Outcome)
  /-- The notice of a node-owned child is queued. -/
  | ended (o : Outcome)
  deriving DecidableEq, Repr

/-- The outcome that can be read in a phase. -/
def Phase.outcome : Phase → Option Outcome
  | .published o | .ended o => some o
  | _ => none

/-- Whether the descendant still accepts sends and other work. -/
def Phase.isOpen : Phase → Bool
  | .registered | .running => true
  | _ => false

structure Kid where
  kin : Kin
  phase : Phase
  deriving DecidableEq, Repr

structure State where
  box : Mailbox.State
  /-- The version of the watch channel. -/
  version : Nat
  nextOp : Nat
  /-- Operations that have yet to perform their wake. -/
  wakes : List Nat
  /-- Accepted sends that are not pushed yet. -/
  sending : List Envelope
  /-- Staged notices that are not pushed yet. -/
  staged : List Envelope
  kids : NodeId → Option Kid
  /-- Every envelope given to `push`, oldest first. -/
  pushed : List Envelope
  /-- The `taken` list of every batch, oldest first. -/
  batches : List (List Envelope)
  /-- Envelopes returned by a push or by `close`. -/
  undelivered : List Envelope
  /-- Sizes of what was handed over since the last `newTurn`. -/
  items : List Nat

def State.init : State where
  box := .default
  version := 0
  nextOp := 0
  wakes := []
  sending := []
  staged := []
  kids := fun _ => none
  pushed := []
  batches := []
  undelivered := []
  items := []

/-- The outcome of a descendant, once published. -/
def State.outcome (s : State) (c : NodeId) : Option Outcome :=
  (s.kids c).bind fun k => k.phase.outcome

/-- Everything handed over, oldest first. -/
def State.delivered (s : State) : List Envelope := s.batches.flatten

/-! ### Labels -/

/-- What a take selects: everything, or the messages of some senders. -/
inductive Pick where
  | all
  | senders (done : Finset NodeId)

def Pick.test : Pick → Envelope → Bool
  | .all, _ => true
  | .senders done, e => e.from_ ∈ done

/-- One step of one task. -/
inductive Label where
  /-- A send asks for room. -/
  | accept (e : Envelope)
  /-- An accepted send is pushed. -/
  | deliver (e : Envelope)
  | register (c : NodeId) (kin : Kin)
  | expect (c : NodeId)
  | join (c : NodeId)
  | publish (o : Outcome)
  /-- A node-owned child's notice is pushed. -/
  | notify (c : NodeId) (id : Nat)
  /-- A reader of an outcome asks to stage its notice. -/
  | stage (o : Outcome) (id : Nat)
  /-- A staged notice is pushed. -/
  | conclude (e : Envelope)
  | take (pick : Pick)
  | idle (shut : Bool)
  | close
  | charge (o : Outcome)
  | saw (c : NodeId)
  | newTurn
  /-- An operation performs its wake. -/
  | wake (op : Nat)

/-! ### Steps -/

/-- The operation that just ran will wake the waiters. -/
def State.willWake (s : State) : State :=
  { s with nextOp := s.nextOp + 1, wakes := s.wakes ++ [s.nextOp] }

/-- Push an envelope and keep what the mailbox returns. -/
def State.post (s : State) (e : Envelope) : Option State :=
  (Mailbox.push s.box e).map fun r =>
    { s with
      box := r.1
      pushed := s.pushed ++ [e]
      undelivered := match r.2 with
        | .ok () => s.undelivered
        | .error e => s.undelivered ++ [e] }.willWake

/-- Hand a batch over. -/
def State.handOver (cfg : Config) (s : State) (box : Mailbox.State) (b : Mailbox.Batch) : State :=
  { s with
    box
    batches := s.batches ++ [b.taken]
    items := s.items ++ b.taken.map (Envelope.size cfg.names) }

def State.setKid (s : State) (c : NodeId) (k : Kid) : State :=
  { s with kids := Function.update s.kids c (some k) }

/-- The state after one step. `none` where the step is not enabled, or where
    the operation panics. -/
def step (cfg : Config) (s : State) : Label → Option State
  | .accept e =>
    if e.plain then
      -- A sender whose admission is closed is refused before it gets here.
      if ((s.kids e.from_).map fun k => k.phase.isOpen).getD true then
        match Mailbox.reserve s.box cfg.limits.mailboxCapacity with
        | .ok box => some { s with box, sending := s.sending ++ [e] }
        | .error _ => some s
      else some s
    else none
  | .deliver e =>
    if e ∈ s.sending then { s with sending := s.sending.erase e }.post e else none
  | .register c kin =>
    if s.kids c = none then
      some (s.setKid c ⟨kin, if kin = .node then .registered else .running⟩)
    else none
  | .expect c =>
    if s.kids c = some ⟨.node, .registered⟩ then
      some ({ s with box := Mailbox.expect s.box c }.setKid c ⟨.node, .running⟩).willWake
    else none
  | .join c =>
    match s.kids c with
    | some ⟨kin, .running⟩ => some (s.setKid c ⟨kin, .joining⟩)
    | _ => none
  | .publish o =>
    match s.kids o.node with
    | some ⟨kin, .joining⟩ =>
      -- The join waits for every accepted send of the node.
      if ∀ e ∈ s.sending, e.from_ ≠ o.node then
        let t := s.setKid o.node ⟨kin, .published o⟩
        some (if kin = .cell then t.willWake else t)
      else none
    | _ => none
  | .notify c id =>
    match s.kids c with
    | some ⟨.node, .published o⟩ =>
      (s.setKid c ⟨.node, .ended o⟩).post (notice cfg id o)
    | _ => none
  | .stage o id =>
    if s.outcome o.node = some o then
      match Mailbox.stage s.box o.node with
      | (box, true) => some { s with box, staged := s.staged ++ [notice cfg id o] }
      | (box, false) => some { s with box }
    else none
  | .conclude e =>
    if e ∈ s.staged then { s with staged := s.staged.erase e }.post e else none
  | .take pick =>
    (Mailbox.take s.box cfg.limits.deliveryChars pick.test (Envelope.size cfg.names)).map
      fun r => s.handOver cfg r.1 r.2
  | .idle shut =>
    (Mailbox.idle s.box shut cfg.limits.deliveryChars (Envelope.size cfg.names)).map fun r =>
      match r.2 with
      | .deliver b => s.handOver cfg r.1 b
      | _ => { s with box := r.1 }
  | .close =>
    let r := Mailbox.close s.box
    some { s with box := r.1, undelivered := s.undelivered ++ r.2 }.willWake
  | .charge o =>
    let cost := (renderOutcome cfg o).length
    match Mailbox.charge s.box cost cfg.limits.deliveryChars with
    | (box, true) => some { s with box, items := s.items ++ [cost] }
    | (box, false) => some { s with box }
  | .saw c => some { s with box := Mailbox.saw s.box c }
  | .newTurn => some { s with box := Mailbox.newTurn s.box, items := [] }
  | .wake op =>
    if op ∈ s.wakes then
      some { s with wakes := s.wakes.erase op, version := s.version + 1 }
    else none

/-- All interleavings of the tasks on one mailbox. -/
def inbox (cfg : Config) : LTS.System State Label where
  init := .init
  step := step cfg

end Kyora.Inbox
