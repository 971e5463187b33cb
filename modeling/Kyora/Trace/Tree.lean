import Kyora.Trace.Event

/-! # Reconstruction of the recursion tree

  `reconstruct_tree` rebuilds the forest of nodes from session records, in
  passes over all records: starts, then turns and charges, then ends, which
  overrule them. The node map of the source is a list in the order of its keys.
-/

namespace Kyora.Trace

/-- Why a transcript is not read back. -/
inductive ReadError where
  /-- A line is not the JSON of a record. -/
  | json
  | bail (message : String)
  deriving DecidableEq, Repr

/-- Recursion node reconstructed from lifecycle and accounting records. -/
structure RecursionTree where
  id : NodeId
  kind : String
  name : String
  model : String
  originCell : Option Nat
  /-- Terminal status, or none for a running node. -/
  status : Option Status
  turns : Nat
  usageSelf : Usage
  /-- Direct usage plus all descendant charges. -/
  usageSubtree : Usage
  /-- Children sorted by id. -/
  children : List RecursionTree
  deriving Repr

/-- A node in the map of the source, with its parent. -/
structure Entry where
  parent : Option NodeId
  tree : RecursionTree

/-- `BTreeMap<NodeId, (Option<NodeId>, RecursionTree)>`, sorted by id. -/
abbrev Nodes : Type := List (NodeId × Entry)

namespace Nodes

/-- `BTreeMap::insert`; `none` when the key was there. -/
def insert (id : NodeId) (e : Entry) : Nodes → Option Nodes
  | [] => some [(id, e)]
  | (k, x) :: rest =>
    if id < k then some ((id, e) :: (k, x) :: rest)
    else if id = k then none
    else (insert id e rest).map ((k, x) :: ·)

/-- Changes the tree of a node, if the node is there. -/
def modify (nodes : Nodes) (id : NodeId) (f : RecursionTree → RecursionTree) : Nodes :=
  nodes.map fun (k, x) => if k = id then (k, { x with tree := f x.tree }) else (k, x)

/-- The children of a node in id order, and the roots for `none`. -/
def children (nodes : Nodes) (parent : Option NodeId) : List NodeId :=
  (nodes.filter fun (_, x) => x.parent == parent).map Prod.fst

end Nodes

/-! ### Passes -/

/-- A node that has just started. -/
def NodeStart.entry (start : NodeStart) : Entry where
  parent := start.parent
  tree :=
    { id := start.node
      kind := start.kind
      name := start.name
      model := start.model
      originCell := start.originCell
      status := none
      turns := 0
      usageSelf := 0
      usageSubtree := 0
      children := [] }

/-- The first pass. -/
def startNode (nodes : Nodes) (record : TraceRecord) : Except ReadError Nodes :=
  match record.event with
  | .nodeStart start =>
    match nodes.insert start.node start.entry with
    | some nodes => .ok nodes
    | none => .error (.bail ("duplicate node_start: " ++ toString start.node))
  | _ => .ok nodes

/-- What a settlement adds to its node: the usage, or the charge as input tokens. -/
def AttemptEnd.spent (settled : AttemptEnd) : Usage :=
  settled.usage.getD ⟨settled.charged, 0, 0, 0⟩

/-- The second pass, with the attempts settled so far. -/
def chargeNode (acc : List Nat × Nodes) (record : TraceRecord) : List Nat × Nodes :=
  match record.event with
  | .message node message =>
    if message.role = .assistant then
      (acc.1, acc.2.modify node fun tree => { tree with turns := tree.turns + 1 })
    else acc
  | .attemptEnd settled =>
    if settled.attempt ∈ acc.1 then acc
    else (acc.1 ++ [settled.attempt], acc.2.modify settled.node fun tree =>
      { tree with usageSelf := tree.usageSelf + settled.spent })
  | _ => acc

/-- The third pass. -/
def endNode (nodes : Nodes) (record : TraceRecord) : Nodes :=
  match record.event with
  | .nodeEnd outcome => nodes.modify outcome.node fun tree =>
    { tree with
      status := some outcome.status
      turns := outcome.turns
      usageSelf := outcome.usageSelf }
  | _ => nodes

/-! ### The forest -/

/-- Every parent is a node. -/
def checkParents (nodes : Nodes) : Except ReadError Unit :=
  match nodes.find? fun (_, x) => x.parent.any fun p => (nodes.lookup p).isNone with
  | some (id, _) => .error (.bail ("missing parent for node: " ++ toString id))
  | none => .ok ()

/-- The walk from a node to its root; a node seen before closes a cycle. A walk
    without a repetition has at most one step for each node. -/
def checkCycle (nodes : Nodes) : Nat → List NodeId → Option NodeId → Except ReadError Unit
  | _, _, none => .ok ()
  | 0, _, some id => .error (.bail ("cycle at node: " ++ toString id))
  | fuel + 1, seen, some id =>
    if id ∈ seen then .error (.bail ("cycle at node: " ++ toString id))
    else checkCycle nodes fuel (id :: seen) ((nodes.lookup id).bind Entry.parent)

/-- The tree of a node. A node has one parent, so the source removes each from
    its map once; `none` is the panic of that removal. -/
def build (nodes : Nodes) : Nat → NodeId → Option RecursionTree
  | 0, _ => none
  | fuel + 1, id =>
    (nodes.lookup id).bind fun e =>
      ((nodes.children (some id)).mapM (build nodes fuel)).map fun children =>
        { e.tree with
          usageSubtree := children.foldl (fun sum child => sum + child.usageSubtree)
            e.tree.usageSelf
          children }

/-- The entries of all nodes after the three passes. -/
def collectNodes (records : List TraceRecord) : Except ReadError Nodes :=
  (records.foldlM startNode []).map fun nodes =>
    records.foldl endNode (records.foldl chargeNode ([], nodes)).2

/-- Reconstructs a forest from session records. `none` is a panic. -/
def reconstructTree (records : List TraceRecord) :
    Option (Except ReadError (List RecursionTree)) :=
  let checked : Except ReadError Nodes := do
    let nodes ← collectNodes records
    checkParents nodes
    nodes.forM fun (id, _) => checkCycle nodes (nodes.length + 1) [] (some id)
    return nodes
  match checked with
  | .error error => some (.error error)
  | .ok nodes => ((nodes.children none).mapM (build nodes nodes.length)).map .ok

end Kyora.Trace
