import Kyora.Ledger.Session
import Kyora.Framework.Tokens
import Kyora.Tool.Toolset
import Kyora.Tool.Schema

/-! # The tree of nodes

  What a node is given when it is admitted: its token, deadline, owners, ledger
  scope and tool selection, all derived from those of the node that admits it.
  Whatever a node then does is preceded by its own check, and anything may
  happen between a check and what it allows: a check that passes grants a
  ticket, and acting spends it.
-/

namespace Kyora.Tree

/-! ### Specifications -/

/-- Provider registry key with a provider-local model name. -/
structure ModelRef where
  provider : String
  model : String
  deriving DecidableEq, Repr

/-- `Display`. -/
def ModelRef.display (m : ModelRef) : String := m.provider ++ "/" ++ m.model

/-- Who a child agent belongs to. -/
inductive Owner where
  | node
  /-- A cell of the node, by its token. -/
  | cell (token : Nat)

/-- Optional child settings. Unspecified model and deadline inherit from the
    parent. -/
structure ChildSpec where
  task : String
  name : Option String
  model : Option ModelRef
  /-- Explicit subset of parent tools; `none` uses the default sub-agent rule. -/
  tools : Tool.ToolSelection
  maxTurns : Option Nat
  /-- Subtree token budget, bounded by every ancestor. -/
  budget : Option Nat
  /-- Child timeout, capped by the parent's deadline. -/
  timeout : Option Nat
  init : Option Json
  preamble : Option String
  originCell : Option Nat
  /-- JSON schema (type object) for a structured result. -/
  output : Option Json

/-- One leaf completion without tools. -/
structure LlmCall where
  prompt : String
  system : Option String
  model : Option ModelRef
  maxTokens : Option Nat
  options : RequestOptions

/-- Task and immutable request prefix of an agent. -/
structure AgentSpec where
  task : String
  model : ModelRef
  cwd : String
  tools : Tool.ToolSelection
  system : Option String
  options : RequestOptions

structure AgentSettings where
  name : String
  originCell : Option Nat
  init : Option Json
  maxTurns : Nat
  output : Option Json

/-- What the frontend supplies. -/
structure Config where
  /-- Keys of the provider registry. -/
  providers : List String
  limits : Limits
  /-- Default leaf model. -/
  llmModel : ModelRef
  /-- System prompt of child agents. -/
  subagentPrompt : String
  /-- Task of the root agent. -/
  root : AgentSpec
  /-- Whether the clock can represent an instant. -/
  fits : Nat → Bool
  /-- The printed form of a JSON value. -/
  print : Json → String

/-! ### Nodes -/

/-- Node-scoped entry point for child agents and leaf completions. Tokens and
    instants are numbers. -/
structure NodeCtx where
  id : NodeId
  parent : Option NodeId
  depth : Nat
  /-- Node-owned cancellation token. -/
  cancel : Nat
  deadline : Nat
  /-- Parent model for future sub-agent inheritance. -/
  model : ModelRef
  cwd : String
  options : RequestOptions
  /-- External owners on the path from the root: cell tokens of cell-owned
      agents and the caller token of a leaf. -/
  owners : List Nat

/-- What a node runs. -/
inductive Task where
  | agent (spec : AgentSpec) (settings : AgentSettings)
  | leaf (call : LlmCall)

structure Node where
  cx : NodeCtx
  task : Task
  /-- The external owner it was admitted with: the cell of a cell-owned agent,
      the caller of a leaf. -/
  owner : Option Nat
  /-- The frozen tool names. -/
  tools : Option (List String)
  /-- Its owned work is closed. -/
  closed : Bool

/-- What a node does after a check. -/
inductive Op where
  | spawnAgent (spec : ChildSpec) (owner : Owner)
  | llm (call : LlmCall) (owner : Nat)
  | send
  | receive
  | wait
  | reserve (promptEstimate maxTokens : Nat)
  | dispatch (attempt : Nat)
  | toolCall
  | answer

/-- A check that passed and was not acted on yet. -/
structure Ticket where
  id : Nat
  node : NodeId
  op : Op

structure State where
  session : Ledger.Session
  tokens : Tokens.Tree
  /-- The nodes by id. -/
  nodes : List Node
  now : Nat
  tickets : List Ticket
  nextTicket : Nat
  /-- What was done so far, with the ticket that allowed it. -/
  performed : List Ticket

/-- The parent links of the nodes. -/
def State.links (s : State) : Forest.Links := fun n => (s.nodes[n]?).map (·.cx.parent)

/-- The token is one of those made so far. -/
def State.knows (s : State) (token : Nat) : Bool := token < s.tokens.parents.length

/-! ### Checks -/

/-- The node token of `stopped`: a cancelled owner cancels it. -/
def State.stop (s : State) (cx : NodeCtx) : State :=
  if !s.tokens.isCancelled cx.cancel && cx.owners.any s.tokens.isCancelled then
    { s with tokens := s.tokens.cancel cx.cancel }
  else s

/-- Whether this node must stop. External owners are checked directly, because
    the watchers that forward their cancellation to the node token may not have
    run yet; a cancelled owner cancels the node token here. -/
def stopped (s : State) (cx : NodeCtx) : State × Bool :=
  ((s.stop cx), (s.stop cx).tokens.isCancelled cx.cancel)

/-- `check_open`. -/
def checkOpen (s : State) (n : Node) : State × Except RecursionError Unit :=
  if n.closed then (s, .error .cancelled)
  else
    match stopped s n.cx with
    | (s, true) => (s, .error .cancelled)
    | (s, false) => (s, if n.cx.deadline ≤ s.now then .error .cancelled else .ok ())

/-- The check of the loops, `stopped() || Instant::now() >= deadline`. -/
def checkRunning (s : State) (n : Node) : State × Except RecursionError Unit :=
  match stopped s n.cx with
  | (s, true) => (s, .error .cancelled)
  | (s, false) => (s, if n.cx.deadline ≤ s.now then .error .cancelled else .ok ())

/-- The check an operation makes first: those on the node's owned work ask
    whether it is open. -/
def Op.check (s : State) (n : Node) : Op → State × Except RecursionError Unit
  | .spawnAgent .. | .llm .. | .send | .receive | .wait => checkOpen s n
  | .reserve .. | .dispatch _ | .toolCall | .answer => checkRunning s n

/-- The external owner an operation brings. -/
def Op.owner : Op → Option Nat
  | .spawnAgent _ (.cell token) => some token
  | .llm _ token => some token
  | _ => none

/-! ### Admission -/

/-- `validate_model`. -/
def validateModel (cfg : Config) (model : ModelRef) : Except RecursionError Unit :=
  if model.model = "" ∨ model.provider ∉ cfg.providers then
    .error (.invalidRequest ("unknown model reference: " ++ model.display))
  else .ok ()

/-- The tool that comes with an output schema. -/
def submitResult : String := "submit_result"

/-- Default tools for sub-agents: those of this list which the parent has. -/
def subagentTools : List String :=
  ["python", "read_file", "spawn_agent", "send_message", "receive", "wait", "cancel_agent"]

/-- The check of a child's own limits. -/
def checkPositive (spec : ChildSpec) : Except RecursionError Unit :=
  if spec.maxTurns = some 0 ∨ spec.timeout = some 0 then
    .error (.invalidRequest "turns and timeout must be positive")
  else .ok ()

/-- The tool names a child's selection is checked against. -/
def frozenTools (n : Node) : Except RecursionError (List String) :=
  match n.tools with
  | some names => .ok names
  | none => .error (.invalidRequest "toolset not frozen")

/-- A child's deadline: its own timeout, capped by the parent's deadline. -/
def childDeadline (cfg : Config) (now deadline : Nat) : Option Nat → Except RecursionError Nat
  | some timeout =>
    if cfg.fits (now + timeout) then .ok (min (now + timeout) deadline)
    else .error (.invalidRequest "timeout is too large")
  | none => .ok deadline

/-- A child's tool selection: explicit tools must be a subset of the parent's
    frozen tool names. -/
def childTools (names : List String) : Tool.ToolSelection → Except RecursionError (List String)
  | some requested =>
    if submitResult ∈ requested then
      .error (.invalidRequest "submit_result comes with an output schema")
    else
      match requested.find? (· ∉ names) with
      | some name => .error (.invalidRequest ("tool not held by parent: " ++ name))
      | none => .ok requested
  | none => .ok (subagentTools.filter (· ∈ names))

/-- The check of a child's output schema. -/
def checkOutput (cfg : Config) : Option Json → Except RecursionError Unit
  | none => .ok ()
  | some output =>
    match output.index "type" with
    | .string "object" =>
      match Tool.checkSchema cfg.print output with
      | .ok () => .ok ()
      | .error error => .error (.invalidRequest ("invalid output schema: " ++ error))
    | _ => .error (.invalidRequest "output must be a JSON schema of type object")

/-- The token of a child's owner, refused when it is cancelled already. -/
def ownerToken (tokens : Tokens.Tree) : Owner → Except RecursionError (Option Nat)
  | .node => .ok none
  | .cell token => if tokens.isCancelled token then .error .cancelled else .ok (some token)

/-- What `spawn_agent` decides before it admits the child. -/
structure ChildPlan where
  deadline : Nat
  model : ModelRef
  tools : List String
  owner : Option Nat

/-- The checks of `spawn_agent` after `check_open`, in the order the code makes
    them. -/
def planChild (cfg : Config) (s : State) (n : Node) (spec : ChildSpec) (owner : Owner) :
    Except RecursionError ChildPlan := do
  checkPositive spec
  let deadline ← childDeadline cfg s.now n.cx.deadline spec.timeout
  let model := spec.model.getD n.cx.model
  validateModel cfg model
  let names ← frozenTools n
  let tools ← childTools names spec.tools
  checkOutput cfg spec.output
  let owner ← ownerToken s.tokens owner
  return { deadline, model, tools, owner }

/-- The node of an admitted child agent. -/
def childNode (cfg : Config) (n : Node) (spec : ChildSpec) (plan : ChildPlan) (id : NodeId)
    (cancel : Nat) : Node where
  cx :=
    { id
      parent := some n.cx.id
      depth := n.cx.depth + 1
      cancel
      deadline := plan.deadline
      model := plan.model
      cwd := n.cx.cwd
      options := n.cx.options
      owners := n.cx.owners ++ plan.owner.toList }
  task := .agent
    { task := match spec.preamble with
        | some preamble => spec.task ++ "\n\n" ++ preamble
        | none => spec.task
      model := plan.model
      cwd := n.cx.cwd
      tools := some plan.tools
      system := some cfg.subagentPrompt
      options := n.cx.options }
    { name := spec.name.getD ""
      originCell := spec.originCell
      init := spec.init
      maxTurns := spec.maxTurns.getD cfg.limits.subagentMaxTurns
      output := spec.output }
  owner := plan.owner
  tools := none
  closed := false

/-- The node of an admitted leaf. -/
def leafNode (n : Node) (call : LlmCall) (model : ModelRef) (owner : Nat) (id : NodeId)
    (cancel : Nat) : Node where
  cx :=
    { id
      parent := some n.cx.id
      depth := n.cx.depth
      cancel
      deadline := n.cx.deadline
      model
      cwd := n.cx.cwd
      options := call.options
      owners := n.cx.owners ++ [owner] }
  task := .leaf call
  owner := some owner
  tools := none
  closed := false

/-- `child_token` of a token that was made before. -/
def childToken (t : Tokens.Tree) (k : Nat) : Option Tokens.Tree :=
  if h : k < t.parents.length then
    some (t.add (some k) fun _ hp => Option.some.inj hp ▸ h)
  else none

/-- Atomically admits a child without waiting for slots or budget, after
    `check_open`. -/
def spawnAgent (cfg : Config) (s : State) (n : Node) (spec : ChildSpec) (owner : Owner) :
    Option (State × Except RecursionError NodeId) :=
  match planChild cfg s n spec owner with
  | .error e => some (s, .error e)
  | .ok plan =>
    -- The child token descends from this node's token even when a cell owns it.
    match childToken s.tokens n.cx.cancel with
    | none => none
    | some tokens =>
      match Ledger.admitChild cfg.limits s.session.ledger n.cx.id true spec.budget with
      | none => none
      | some (_, .error e) => some (s, .error e)
      | some (ledger, .ok id) =>
        some ({ s with
            session := { s.session with ledger }
            tokens
            nodes := s.nodes ++ [childNode cfg n spec plan id s.tokens.parents.length] },
          .ok id)

/-- Admits a traceable leaf completion owned by both node and caller tokens,
    after `check_open`. -/
def llm (cfg : Config) (s : State) (n : Node) (call : LlmCall) (owner : Nat) :
    Option (State × Except RecursionError NodeId) :=
  if call.maxTokens = some 0 then
    some (s, .error (.invalidRequest "max_tokens must be positive"))
  else
    let model := call.model.getD cfg.llmModel
    match validateModel cfg model with
    | .error e => some (s, .error e)
    | .ok () =>
      -- The caller's scope is a child token, and the leaf's is a child of it.
      match (childToken s.tokens n.cx.cancel).bind (childToken · s.tokens.parents.length) with
      | none => none
      | some tokens =>
        if s.tokens.isCancelled owner then some (s, .error .cancelled)
        else
          match Ledger.admitChild cfg.limits s.session.ledger n.cx.id false none with
          | none => none
          | some (_, .error e) => some (s, .error e)
          | some (ledger, .ok id) =>
            some ({ s with
                session := { s.session with ledger }
                tokens
                nodes := s.nodes ++
                  [leafNode n call model owner id (s.tokens.parents.length + 1)] },
              .ok id)

/-! ### Toolsets -/

/-- Specification of the tool through which a child with an output contract
    finishes. -/
def submitResultSpec (schema : Json) : ToolSpec where
  name := submitResult
  description :=
    "Submit your result. The input must match this schema. A valid submission ends your " ++
    "work at once and sends the result to your parent; an invalid one returns what to fix."
  inputSchema := schema
  largeInput := false

/-- The tools an agent runs with, from what the factory made for it. -/
def nodeTools (made : Except String Tool.Toolset) (spec : AgentSpec) (settings : AgentSettings) :
    Except String Tool.Toolset := do
  let made ← made
  let tools ← made.select spec.tools
  match settings.output with
  | some schema => tools.withOwnValidation (submitResultSpec schema)
  | none => return tools

end Kyora.Tree
