import Kyora.Framework.SortedMap
import Mathlib.Order.Nat

/-! # The state of the terminal interface

  The interface shows a tree of nodes and one transcript list for all of them.
  Events name the node they belong to; `apply` changes the node in the table and
  adds to the list, or changes the last entry of the node that fits.

  Nodes are admitted under the identifier of their description, and the
  description keeps it: the table carries this as an invariant.
-/

namespace Kyora.Tui

/-! ### Events -/

/-- Session-wide UI identifier. Cells and model calls also receive distinct IDs. -/
abbrev NodeId : Type := Nat

inductive Status where
  | idle | running | done | cancelled | failed
  deriving DecidableEq, Repr

inductive NodeKind where
  | agent | cell | llm
  deriving DecidableEq, Repr

structure NodeSpec where
  id : NodeId
  /-- Parent identifier, or none for a root. -/
  parent : Option NodeId
  name : String
  model : String
  deriving DecidableEq, Repr

inductive UiEvent where
  | textDelta (node : NodeId) (text : String)
  | toolCallStarted (node : NodeId) (id name args : String)
  | toolCallFinished (node : NodeId) (id result : String) (status : Status)
  | agentSpawned (spec : NodeSpec)
  | agentFinished (node : NodeId) (status : Status)
  | replCellStarted (node : NodeSpec) (code : String)
  | replCellFinished (node : NodeId) (output : String) (status : Status)
  | llmCall (node : NodeSpec)
  | llmCallFinished (node : NodeId) (status : Status)
  | usage (node : NodeId) (tokens costMicrousd : Nat)
  /-- None updates the shared budget; some sets a tighter node budget. -/
  | budget (node : Option NodeId) (remaining : Nat)
  deriving DecidableEq, Repr

/-! ### Nodes and entries -/

/-- Display state and cumulative accounting for one recursion tree node. -/
structure Node where
  spec : NodeSpec
  kind : NodeKind
  status : Status
  tokens : Nat
  costMicrousd : Nat
  remaining : Option Nat
  deriving DecidableEq, Repr

/-- A transcript entry associated with a node. -/
inductive Entry where
  | user (node : NodeId) (text : String)
  | assistant (node : NodeId) (text : String)
  | tool (node : NodeId) (id name args : String) (result : Option String) (status : Status)
      (expanded : Bool)
  deriving DecidableEq, Repr

namespace Entry

/-- The identifier of the node owning this entry. -/
def node : Entry → NodeId
  | .user node _ | .assistant node _ | .tool node .. => node

/-- `text.push_str`, on the text of an assistant. -/
def pushStr (text : String) : Entry → Entry
  | .assistant node existing => .assistant node (existing ++ text)
  | entry => entry

def isCall (owner : NodeId) (call : String) : Entry → Bool
  | .tool node id .. => node = owner ∧ id = call
  | _ => false

def finish (output : String) (state : Status) : Entry → Entry
  | .tool node id name args _ _ expanded => .tool node id name args (some output) state expanded
  | entry => entry

@[simp] theorem node_pushStr (text : String) (entry : Entry) :
    (entry.pushStr text).node = entry.node := by
  cases entry <;> rfl

@[simp] theorem node_finish (output : String) (state : Status) (entry : Entry) :
    (entry.finish output state).node = entry.node := by
  cases entry <;> rfl

theorem node_of_isCall {owner : NodeId} {call : String} {entry : Entry}
    (h : entry.isCall owner call = true) : entry.node = owner := by
  cases entry with
  | tool node id name args result status expanded => exact (of_decide_eq_true h).1
  | user node text => exact absurd h Bool.false_ne_true
  | assistant node text => exact absurd h Bool.false_ne_true

end Entry

/-- Changes the last element that passes a test, as a search from the end for a
    mutable reference does. -/
def modifyLast {α : Type} (p : α → Bool) (f : α → α) : List α → List α
  | [] => []
  | a :: as => if as.any p then a :: modifyLast p f as else if p a then f a :: as else a :: as

/-! ### The state -/

/-- Event-driven UI state: the admitted nodes by identifier, the transcript
    entries in arrival order and the remaining shared budget. -/
structure App where
  nodes : SortedMap NodeId Node
  entries : List Entry
  remaining : Nat
  keyed : ∀ id node, nodes.get? id = some node → node.spec.id = id

namespace App

/-- Admits a node. -/
def insertNode (s : App) (node : Node) : App :=
  { s with
    nodes := s.nodes.insert node.spec.id node
    keyed := by
      intro id node' h
      rw [SortedMap.get?_insert] at h
      by_cases hid : id = node.spec.id
      · rw [if_pos hid, Option.some.injEq] at h
        rw [hid, h]
      · rw [if_neg hid] at h
        exact s.keyed id node' h }

/-- Changes a node that was admitted, and leaves its identifier. -/
def modifyNode (s : App) (id : NodeId) (f : Node → Node)
    (hf : ∀ node, (f node).spec.id = node.spec.id) : App :=
  { s with
    nodes := s.nodes.modify id f
    keyed := by
      intro id' node' h
      rw [SortedMap.get?_modify] at h
      by_cases hid : id' = id
      · rw [if_pos hid, Option.map_eq_some_iff] at h
        obtain ⟨node, hnode, rfl⟩ := h
        rw [hf, s.keyed id' node hnode]
      · rw [if_neg hid] at h
        exact s.keyed id' node' h }

/-- Topology is immutable after admission. Repeated admission starts the next
    turn while preserving cumulative accounting and history. -/
def startNode (s : App) (spec : NodeSpec) (kind : NodeKind) : App :=
  match s.nodes.get? spec.id with
  | some _ =>
    s.modifyNode spec.id (fun node =>
      { node with
        status := .running
        spec := { node.spec with name := spec.name, model := spec.model } }) fun _ => rfl
  | none => s.insertNode ⟨spec, kind, .running, 0, 0, none⟩

def finishNode (s : App) (id : NodeId) (status : Status) : App :=
  s.modifyNode id (fun node => { node with status }) fun _ => rfl

def push (s : App) (entry : Entry) : App := { s with entries := s.entries ++ [entry] }

/-- `App::new`. -/
def new : App :=
  (App.startNode ⟨.empty, [], 20000, fun _ _ h => absurd h (Option.some_ne_none _).symm⟩
    ⟨0, none, "root", "fake/root"⟩ .agent).finishNode 0 .idle

/-- Applies one event to node state, usage or transcript entries. -/
def apply (s : App) : UiEvent → App
  | .agentSpawned spec => s.startNode spec .agent
  | .replCellStarted node code => (s.startNode node .cell).push (.user node.id code)
  | .llmCall node => s.startNode node .llm
  | .agentFinished node status | .llmCallFinished node status => s.finishNode node status
  | .replCellFinished node output status =>
    (s.finishNode node status).push (.assistant node output)
  | .textDelta node text =>
    -- Interleaved child streams append to their own latest block.
    match s.entries.reverse.find? (·.node = node) with
    | some (.assistant ..) =>
      { s with entries := modifyLast (·.node = node) (Entry.pushStr text) s.entries }
    | _ => s.push (.assistant node text)
  | .toolCallStarted node id name args => s.push (.tool node id name args none .running false)
  | .toolCallFinished node id result status =>
    { s with entries := modifyLast (Entry.isCall node id) (Entry.finish result status) s.entries }
  | .usage node tokens costMicrousd =>
    s.modifyNode node (fun node => { node with tokens, costMicrousd }) fun _ => rfl
  | .budget (some id) remaining =>
    s.modifyNode id (fun node => { node with remaining := some remaining }) fun _ => rfl
  | .budget none remaining => { s with remaining }

end App

end Kyora.Tui
