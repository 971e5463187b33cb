import Kyora.Basic
import Kyora.Framework.Forest

/-! # The ledger

  Admission and accounting for the node scope tree: `admitChild`, `reserve`,
  `settle`, `closeAdmission` and `shutdown` on the state behind the ledger's
  mutex. Each runs under that mutex, so each is one atomic step.

  An operation returns `none` where the code panics: an index out of bounds,
  a counter underflow, or a reservation settled twice. A refused operation
  returns its error next to the state it leaves behind.
-/

namespace Kyora.Ledger

/-! ### Data -/

/-- Scope counters, including outstanding reservations. -/
structure BudgetSnapshot where
  /-- Configured scope budget. -/
  limit : Nat
  /-- Settled charges on the subtree. -/
  used : Nat
  /-- Unsettled reservations on the subtree. -/
  reserved : Nat
  /-- Once closed, this scope never admits further requests. -/
  closed : Bool
  deriving DecidableEq, Repr

/-- Remaining dispatch headroom, zero for closed scopes. -/
def BudgetSnapshot.remaining (b : BudgetSnapshot) : Nat :=
  if b.closed then 0 else b.limit - (b.used + b.reserved)

structure Scope where
  parent : Option NodeId
  depth : Nat
  agent : Bool
  alive : Bool
  admissionClosed : Bool
  budget : BudgetSnapshot
  usage : Usage
  own : Usage
  deriving DecidableEq, Repr

/-- An unsettled attempt: an entry of the attempt map. -/
structure Attempt where
  id : Nat
  node : NodeId
  tokens : Nat
  deriving DecidableEq, Repr

structure State where
  scopes : List Scope
  total : Nat
  live : Nat
  llm : Nat
  nextAttempt : Nat
  attempts : List Attempt
  deriving DecidableEq, Repr

/-- An admitted reservation; settlement consumes it exactly once. -/
structure Reservation where
  /-- Session-unique attempt identifier. -/
  id : Nat
  /-- Reserved processed tokens. -/
  tokens : Nat
  /-- Output cap after reduction to fit headroom. -/
  maxTokens : Nat
  deriving DecidableEq, Repr

/-- Accounting result of a settlement. -/
structure Settlement where
  charged : Nat
  excess : Nat
  deriving DecidableEq, Repr

/-- What a failed attempt is charged. -/
inductive AttemptCharge where
  /-- The request was not sent, or was rejected before processing. -/
  | zero
  /-- The full reservation, because usage is unknown. -/
  | reserved
  deriving DecidableEq, Repr

/-- Charge selected by the runtime after one attempt. -/
inductive Charge where
  /-- A completed request's measured usage. -/
  | usage (u : Usage)
  /-- Provider error policy when final usage is unavailable. -/
  | failed (c : AttemptCharge)
  deriving DecidableEq, Repr

/-- The amount charged for an attempt that reserved `tokens`. -/
def Charge.charged (tokens : Nat) : Charge → Nat
  | .usage u => u.total
  | .failed .zero => 0
  | .failed .reserved => tokens

/-- The usage recorded for an attempt that reserved `tokens`. -/
def Charge.recorded (tokens : Nat) : Charge → Usage
  | .usage u => u
  | .failed .zero => 0
  | .failed .reserved => ⟨tokens, 0, 0, 0⟩

@[simp] theorem Charge.total_recorded (tokens : Nat) (c : Charge) :
    (c.recorded tokens).total = c.charged tokens := by
  match c with
  | .usage _ => rfl
  | .failed .zero => rfl
  | .failed .reserved => simp [recorded, charged, Usage.total]

/-! ### Scopes and paths -/

/-- The parent links of the scope tree. -/
def State.links (s : State) : Forest.Links := fun id => (s.scopes[id]?).map Scope.parent

/-- The scopes from `node` to the root. A walk without a cycle visits each
    scope at most once, so as many steps as there are scopes suffice. -/
def path (s : State) (node : NodeId) : Option (List NodeId) :=
  Forest.climb s.links s.scopes.length (some node)

/-- A loop over the scopes of a path, each updated in place. -/
def updatePath (f : Scope → Option Scope) : List NodeId → List Scope → Option (List Scope)
  | [], scopes => some scopes
  | id :: rest, scopes =>
    match scopes[id]? with
    | none => none
    | some n =>
      match f n with
      | none => none
      | some n' => updatePath f rest (scopes.set id n')

/-- A scope as admission or the root creates it. -/
def freshScope (parent : Option NodeId) (depth : Nat) (agent : Bool) (limit : Nat) : Scope where
  parent := parent
  depth := depth
  agent := agent
  alive := true
  admissionClosed := false
  budget := { limit := limit, used := 0, reserved := 0, closed := false }
  usage := 0
  own := 0

/-! ### Operations -/

/-- The state with the root scope, counted as one live agent. -/
def initial (limits : Limits) : State where
  scopes := [freshScope none 0 true limits.budgetTokens]
  total := 1
  live := 1
  llm := 0
  nextAttempt := 0
  attempts := []

/-- `Ledger::new`: validated limits give the root ledger. -/
def new (fits : Nat → Bool) (limits : Limits) : Except String State := do
  limits.validate fits
  return initial limits

/-- The limit checks of `admitChild`, in the order the code makes them. -/
def exceededLimit (limits : Limits) (s : State) (agent : Bool) (depth : Nat) : Option String :=
  ([(agent && decide (depth > limits.maxDepth), "depth"),
    (agent && decide (s.live ≥ limits.maxAgentsLive), "agents_live"),
    (agent && decide (s.total ≥ limits.maxAgentsTotal), "agents_total"),
    (!agent && decide (s.llm ≥ limits.maxLlmCalls), "llm_calls")].find? (·.1)).map (·.2)

/-- Remaining headroom of each scope of a path. -/
def headrooms (s : State) (ids : List NodeId) : List Nat :=
  ids.filterMap fun id => (s.scopes[id]?).map fun n => n.budget.remaining

/-- Atomically admits a child. Leaf nodes consume no agent depth or slots. -/
def admitChild (limits : Limits) (s : State) (parent : NodeId) (agent : Bool)
    (limit : Option Nat) : Option (State × Except RecursionError NodeId) :=
  match s.scopes[parent]? with
  | none => some (s, .error (.invalidRequest "unknown parent"))
  | some p =>
    if !p.alive || p.admissionClosed then some (s, .error .cancelled)
    else
      let depth := p.depth + agent.toNat
      match exceededLimit limits s agent depth with
      | some name => some (s, .error (.limitExceeded name))
      | none =>
        if limit = some 0 then some (s, .error (.invalidRequest "budget must be positive"))
        else
          match path s parent with
          | none => none
          | some ids =>
            if (headrooms s ids).any (· == 0) then some (s, .error .budgetExceeded)
            else
              let budget := min (limit.getD limits.budgetTokens) p.budget.limit
              let id := s.scopes.length
              if 2 ^ 32 ≤ id then
                some (s, .error (.invalidRequest "node identifiers exhausted"))
              else
                let scopes := s.scopes ++ [freshScope (some parent) depth agent budget]
                if agent then
                  some ({ s with scopes, total := s.total + 1, live := s.live + 1 }, .ok id)
                else some ({ s with scopes, llm := s.llm + 1 }, .ok id)

/-- Reserves on every ancestor atomically. -/
def reserve (s : State) (node : NodeId) (promptEstimate requested : Nat) :
    Option (State × Except String Reservation) :=
  if requested = 0 then some (s, .error "max_tokens must be positive")
  else if !((s.scopes[node]?).any fun n => n.alive && !n.admissionClosed) then
    some (s, .error "node is shut down")
  else
    match path s node with
    | none => none
    | some ids =>
      let headroom := (headrooms s ids).min?.getD 0
      let available := headroom - promptEstimate
      let cap := min requested available
      if cap < min minOutputTokens requested ∨ headroom < promptEstimate then
        some (s, .error "budget exhausted")
      else
        let tokens := promptEstimate + cap
        let add := fun n : Scope =>
          some { n with budget := { n.budget with reserved := n.budget.reserved + tokens } }
        match updatePath add ids s.scopes with
        | none => none
        | some scopes =>
          let id := s.nextAttempt
          some ({ s with
              scopes
              nextAttempt := id + 1
              attempts := s.attempts ++ [⟨id, node, tokens⟩] },
            .ok { id, tokens, maxTokens := cap })

/-- One scope's share of a settlement. -/
def settleScope (tokens charged : Nat) (usage : Usage) (n : Scope) : Option Scope :=
  match checkedSub n.budget.reserved tokens with
  | none => none
  | some reserved =>
    let used := n.budget.used + charged
    some { n with
      budget := { n.budget with
        used, reserved
        closed := n.budget.closed || decide (used + reserved > n.budget.limit) }
      usage := n.usage + usage }

/-- Settles once and closes any scope whose used plus reserved exceeds its
    limit. -/
def settle (s : State) (reservation : Reservation) (charge : Charge) :
    Option (State × Settlement) :=
  match s.attempts.find? (·.id == reservation.id) with
  | none => none
  | some a =>
    let charged := charge.charged a.tokens
    let usage := charge.recorded a.tokens
    match path s a.node with
    | none => none
    | some ids =>
      match updatePath (settleScope a.tokens charged usage) ids s.scopes with
      | none => none
      | some scopes =>
        match scopes[a.node]? with
        | none => none
        | some n =>
          some ({ s with
              scopes := scopes.set a.node { n with own := n.own + usage }
              attempts := s.attempts.eraseP (·.id == reservation.id) },
            { charged, excess := charged - a.tokens })

/-- Closes admission without releasing the live slot or discarding
    reservations. -/
def closeAdmission (s : State) (node : NodeId) : Option State :=
  match s.scopes[node]? with
  | none => none
  | some n => some { s with scopes := s.scopes.set node { n with admissionClosed := true } }

/-- Releases a live-agent slot only at node shutdown. Idempotent. -/
def shutdown (s : State) (node : NodeId) : Option State :=
  match s.scopes[node]? with
  | none => none
  | some n =>
    if n.alive then
      let scopes := s.scopes.set node { n with alive := false }
      if n.agent then
        match checkedSub s.live 1 with
        | none => none
        | some live => some { s with scopes, live }
      else some { s with scopes }
    else some s

/-! ### Reads -/

/-- One scope's budget counters. -/
def snapshot (s : State) (node : NodeId) : Option BudgetSnapshot :=
  (s.scopes[node]?).map Scope.budget

/-- Recorded usage, self then subtree. -/
def usage (s : State) (node : NodeId) : Option (Usage × Usage) :=
  (s.scopes[node]?).map fun n => (n.own, n.usage)

end Kyora.Ledger
