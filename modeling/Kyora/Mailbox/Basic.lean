import Mathlib.Data.Finset.Basic
import Mathlib.Data.Multiset.Basic
import Kyora.Basic

/-! # Agent mailboxes

  Every agent owns one mailbox: a queue of envelopes and the bookkeeping of
  its deliveries. Plain messages are bounded by the capacity, with room
  reserved at acceptance; terminal entries bypass the bound. Each operation
  runs under the mailbox mutex, so it is one function on the state, and
  `none` is a panic (a counter that underflows).
-/

namespace Kyora

/-! ### Envelopes -/

/-- What an envelope carries. -/
inductive MessageKind where
  | message | result | error | cancelled
  deriving DecidableEq, Repr

/-- Kind of the terminal notice for a child that ended with `status`. -/
def MessageKind.forStatus : Status → MessageKind
  | .completed => .result
  | .cancelled => .cancelled
  | _ => .error

def MessageKind.asStr : MessageKind → String
  | .message => "message"
  | .result => "result"
  | .error => "error"
  | .cancelled => "cancelled"

/-- A notice is never a plain message. -/
@[simp] theorem MessageKind.forStatus_ne_message (status : Status) :
    forStatus status ≠ .message := by
  cases status <;> simp [forStatus]

/-- One message between two agents of the same tree. -/
structure Envelope where
  /-- Session-unique identifier. -/
  id : Nat
  from_ : NodeId
  to_ : NodeId
  kind : MessageKind
  body : String
  /-- The spawned child this message belongs to, absent between siblings. -/
  spawn : Option NodeId
  /-- Terminal status on notices. -/
  status : Option Status
  deriving DecidableEq, Repr

/-- Conversation text: a bracketed header naming the sender and the status of
    a notice, then the body on the following lines. -/
def render (kind : MessageKind) (from_ : NodeId) (sender : String) (status : Option Status)
    (body : String) : String :=
  let text := "[" ++ kind.asStr ++ " from agent " ++ toString from_
  let text := if sender.isEmpty then text else text ++ " (" ++ sender ++ ")"
  let text := match status with
    | some status => text ++ ": " ++ status.asStr
    | none => text
  let text := text ++ "]"
  if body.isEmpty then text else text ++ "\n" ++ body

/-- Every rendering has a header, so it is not empty. -/
theorem render_length_pos (kind : MessageKind) (from_ : NodeId) (sender : String)
    (status : Option Status) (body : String) :
    0 < (render kind from_ sender status body).length := by
  have hheader : ∀ text : String, 0 < (text ++ "]").length := by
    intro text
    rw [String.length_append]
    exact Nat.lt_add_left _ (by decide)
  unfold render
  simp only
  split
  · exact hheader _
  · rw [String.length_append, String.length_append]
    exact Nat.lt_add_right _ (Nat.lt_add_right _ (hheader _))

/-- Size of a message as delivered, in characters. -/
def Envelope.size (names : NodeId → String) (e : Envelope) : Nat :=
  (render e.kind e.from_ (names e.from_) e.status e.body).length

theorem Envelope.size_pos (names : NodeId → String) (e : Envelope) : 0 < e.size names :=
  render_length_pos _ _ _ _ _

/-- A plain message, as opposed to a terminal entry. -/
def Envelope.plain (e : Envelope) : Bool := e.kind == .message

namespace Mailbox

/-! ### State -/

structure State where
  queue : List Envelope
  /-- Queued plain messages; together with `reserved` bounded by the capacity. -/
  plain : Nat
  /-- Accepted plain messages whose send record is still being written. -/
  reserved : Nat
  /-- Node-owned children whose terminal notice has not been queued yet. -/
  awaiting : Finset NodeId
  closed : Bool
  /-- Characters handed over since the agent's last model request. -/
  turn : Nat
  /-- Agents whose terminal entry has been queued or staged. -/
  concluded : Finset NodeId
  /-- Agents whose outcome this agent's model has been handed. -/
  seen : Finset NodeId

/-- `State::default()`. -/
def State.default : State where
  queue := []
  plain := 0
  reserved := 0
  awaiting := ∅
  closed := false
  turn := 0
  concluded := ∅
  seen := ∅

/-- Why a mailbox refused a plain message. -/
inductive Refusal where
  | full | closed
  deriving DecidableEq, Repr

/-- One delivery taken from a mailbox. -/
structure Batch where
  /-- Envelopes handed over, in arrival order. -/
  taken : List Envelope
  /-- Senders of the selected envelopes that did not fit, with multiplicity. -/
  left : Multiset NodeId
  /-- Envelopes still queued, from any sender. -/
  queued : Nat

/-- What an agent with nothing left to do at the end of a turn does next. -/
inductive Idle where
  | deliver (batch : Batch)
  | wait
  | done

/-! ### Delivery -/

/-- The locals of the loop in `take`. -/
structure Drain where
  taken : List Envelope
  left : Multiset NodeId
  rest : List Envelope
  used : Nat
  full : Bool

/-- One round of the loop in `take`. -/
def drain (budget : Nat) (pick : Envelope → Bool) (size : Envelope → Nat) (fresh : Bool)
    (d : Drain) (e : Envelope) : Drain :=
  if pick e then
    if !d.full && ((fresh && d.taken.isEmpty) || d.used + size e ≤ budget) then
      { d with used := d.used + size e, taken := d.taken ++ [e] }
    else
      -- Later envelopes stay behind this one, even smaller ones.
      { d with full := true, left := e.from_ ::ₘ d.left, rest := d.rest ++ [e] }
  else { d with rest := d.rest ++ [e] }

/-- Agents whose terminal entry is among `taken`. -/
def terminals (taken : List Envelope) : Finset NodeId :=
  ((taken.filter fun e => !e.plain).map Envelope.from_).toFinset

/-- Takes the selected envelopes, whole and in arrival order, until the next
    would push their size past the budget; the first one of a turn always
    goes. What does not fit stays queued and keeps its place. -/
def take (s : State) (budget : Nat) (pick : Envelope → Bool) (size : Envelope → Nat) :
    Option (State × Batch) :=
  let d := s.queue.foldl (drain budget pick size (s.turn == 0))
    { taken := [], left := 0, rest := [], used := s.turn, full := false }
  (checkedSub s.plain (d.taken.countP Envelope.plain)).map fun plain =>
    ({ s with
        queue := d.rest
        turn := d.used
        seen := s.seen ∪ terminals d.taken
        plain },
      { taken := d.taken, left := d.left, queued := d.rest.length })

/-- Tells a model how many messages are still waiting after a delivery. -/
def more (count : Nat) : String :=
  if count = 1 then "1 more message waiting; it follows at your next turn"
  else toString count ++ " more messages waiting; they follow at your next turn"

/-- Tells a model that a child's messages, ending with `last`, did not all fit. -/
def deferred (agent : NodeId) (count : Nat) (last : String) : String :=
  if count = 1 then
    "agent " ++ toString agent ++ " finished, but its " ++ last ++
      " did not fit; it follows at your next turn"
  else
    "agent " ++ toString agent ++ " finished, but " ++ toString count ++
      " of its messages, its " ++ last ++
      " last, did not fit; they follow at your next turn"

/-! ### Operations -/

/-- Reserves room for one plain message. -/
def reserve (s : State) (capacity : Nat) : Except Refusal State :=
  if s.closed then .error .closed
  else if s.plain + s.reserved ≥ capacity then .error .full
  else .ok { s with reserved := s.reserved + 1 }

/-- Registers a child whose terminal notice this mailbox will receive. -/
def expect (s : State) (child : NodeId) : State :=
  { s with awaiting := insert child s.awaiting }

/-- The counters of `push`: a plain message consumes its reservation and a
    notice clears its child, whether the mailbox is closed or not. -/
def clear (s : State) (e : Envelope) : Option State :=
  if e.plain then (checkedSub s.reserved 1).map fun reserved => { s with reserved }
  else some { s with
    awaiting := s.awaiting.erase e.from_
    concluded := insert e.from_ s.concluded }

/-- Queues an envelope, or returns it when the mailbox is closed. -/
def push (s : State) (e : Envelope) : Option (State × Except Envelope Unit) :=
  (clear s e).map fun s =>
    if s.closed then (s, .error e)
    else ({ s with plain := s.plain + e.plain.toNat, queue := s.queue ++ [e] }, .ok ())

/-- Whether a terminal entry for `child` has been queued or staged. -/
def isConcluded (s : State) (child : NodeId) : Bool := child ∈ s.concluded

/-- Stages a terminal entry for an agent that posts none to this mailbox. False
    if one was queued or staged before, if a notice of its own is on its way,
    or if the mailbox is closed. -/
def stage (s : State) (agent : NodeId) : State × Bool :=
  if s.closed || agent ∈ s.awaiting || agent ∈ s.concluded then (s, false)
  else ({ s with
    concluded := insert agent s.concluded
    awaiting := insert agent s.awaiting }, true)

/-- Whether this agent's model has been handed `agent`'s outcome. -/
def hasSeen (s : State) (agent : NodeId) : Bool := agent ∈ s.seen

/-- Notes that this agent's model was handed `agent`'s outcome in a report. -/
def saw (s : State) (agent : NodeId) : State := { s with seen := insert agent s.seen }

/-- Charges text outside an envelope against this turn's budget. False,
    charging nothing, when it does not fit; the first report always fits. -/
def charge (s : State) (cost budget : Nat) : State × Bool :=
  if s.turn > 0 && s.turn + cost > budget then (s, false)
  else ({ s with turn := s.turn + cost }, true)

/-- Starts a new turn's delivery budget. -/
def newTurn (s : State) : State := { s with turn := 0 }

/-- Decides atomically between delivering, waiting and closing. -/
def idle (s : State) (close : Bool) (budget : Nat) (size : Envelope → Nat) :
    Option (State × Idle) :=
  if !s.queue.isEmpty then
    (take s budget (fun _ => true) size).map fun r => (r.1, .deliver r.2)
  else if s.awaiting = ∅ ∧ s.reserved = 0 then
    some ({ s with closed := s.closed || close }, .done)
  else some (s, .wait)

/-- Closes the mailbox and returns the envelopes nobody will deliver. -/
def close (s : State) : State × List Envelope :=
  ({ s with closed := true, plain := 0, queue := [] }, s.queue)

def isClosed (s : State) : Bool := s.closed

def isAwaiting (s : State) (child : NodeId) : Bool := child ∈ s.awaiting

/-- Children whose result has not been delivered: still running, or queued. -/
def outstanding (s : State) : Finset NodeId := terminals s.queue ∪ s.awaiting

end Mailbox

end Kyora
