import Kyora.Framework.Checks
import Kyora.Trace.Build

/-! # What reconstruction yields

  For a transcript whose nodes start once and after their parents,
  `reconstructTree` succeeds. The rows of its forest are the started nodes, each
  with the accounts of its own records and the subtree sum of what is below.
-/

namespace Kyora.Trace

/-! ### Records by kind -/

def starts (events : List TraceEvent) : List NodeStart :=
  events.filterMap fun
    | .nodeStart start => some start
    | _ => none

def settlements (events : List TraceEvent) : List AttemptEnd :=
  events.filterMap fun
    | .attemptEnd settled => some settled
    | _ => none

/-- The ends of a node. -/
def endsOf (id : NodeId) (events : List TraceEvent) : List AgentOutcome :=
  events.filterMap fun
    | .nodeEnd outcome => if id = outcome.node then some outcome else none
    | _ => none

/-- What the settlements of a node add up to. -/
def spentBy (id : NodeId) (events : List TraceEvent) : Usage :=
  (((settlements events).filter fun settled => settled.node == id).map AttemptEnd.spent).sum

/-! ### The passes, node by node -/

theorem insert_spec {id : NodeId} {e : Entry} {nodes : Nodes} (h : id ∉ nodes.map Prod.fst) :
    ∃ nodes', nodes.insert id e = some nodes' ∧ nodes'.Perm ((id, e) :: nodes) := by
  induction nodes with
  | nil => exact ⟨_, rfl, .refl _⟩
  | cons x rest ih =>
    obtain ⟨k, x⟩ := x
    rw [List.map_cons, List.mem_cons, not_or] at h
    unfold Nodes.insert
    by_cases hlt : id < k
    · rw [if_pos hlt]
      exact ⟨_, rfl, .refl _⟩
    · rw [if_neg hlt, if_neg h.1]
      obtain ⟨nodes', hinsert, hperm⟩ := ih h.2
      refine ⟨(k, x) :: nodes', by rw [hinsert, Option.map_some], ?_⟩
      exact (hperm.cons _).trans (.swap _ _ _)

/-- Distinct starts all go into the map. -/
theorem foldlM_startNode {records : List TraceRecord} {nodes : Nodes}
    (h : (nodes.map Prod.fst ++
      (starts (records.map TraceRecord.event)).map NodeStart.node).Nodup) :
    ∃ nodes', records.foldlM startNode nodes = .ok nodes' ∧
      nodes'.Perm (nodes ++
        (starts (records.map TraceRecord.event)).map fun start => (start.node, start.entry)) := by
  induction records generalizing nodes with
  | nil => exact ⟨nodes, rfl, by simp [starts]⟩
  | cons record records ih =>
    rw [List.foldlM_cons]
    cases hevent : record.event with
    | nodeStart start =>
      have hstarts : starts ((record :: records).map TraceRecord.event) =
          start :: starts (records.map TraceRecord.event) := by
        rw [List.map_cons, hevent]
        rfl
      rw [hstarts] at h ⊢
      rw [List.map_cons] at h
      have hnodup := List.perm_middle.nodup_iff.mp h
      have hnew : start.node ∉ nodes.map Prod.fst :=
        fun hmem => (List.nodup_cons.mp hnodup).1 (List.mem_append_left _ hmem)
      obtain ⟨nodes', hinsert, hnodes'⟩ := insert_spec (e := start.entry) hnew
      have hkeys := (hnodes'.map Prod.fst).append_right
        ((starts (records.map TraceRecord.event)).map NodeStart.node)
      obtain ⟨nodes'', hfold, hnodes''⟩ := ih (hkeys.nodup_iff.mpr hnodup)
      refine ⟨nodes'', ?_, ?_⟩
      · simp only [startNode, hevent, hinsert]
        exact hfold
      · refine hnodes''.trans ((hnodes'.append_right _).trans ?_)
        exact List.perm_middle.symm
    | _ =>
      have hstarts : starts ((record :: records).map TraceRecord.event) =
          starts (records.map TraceRecord.event) := by
        rw [List.map_cons, hevent]
        rfl
      rw [hstarts] at h ⊢
      obtain ⟨nodes', hfold, hnodes'⟩ := ih h
      refine ⟨nodes', ?_, hnodes'⟩
      simp only [startNode, hevent]
      exact hfold

/-- Changes each tree of the map by its id. -/
def Nodes.mapTree (nodes : Nodes) (f : NodeId → RecursionTree → RecursionTree) : Nodes :=
  nodes.map fun x => (x.1, { x.2 with tree := f x.1 x.2.tree })

theorem Nodes.mapTree_id (nodes : Nodes) : nodes.mapTree (fun _ tree => tree) = nodes :=
  List.map_id nodes

theorem Nodes.mapTree_mapTree (nodes : Nodes) (f g : NodeId → RecursionTree → RecursionTree) :
    (nodes.mapTree f).mapTree g = nodes.mapTree fun id tree => g id (f id tree) := by
  unfold mapTree
  rw [List.map_map]
  rfl

theorem Nodes.modify_eq (nodes : Nodes) (id : NodeId) (f : RecursionTree → RecursionTree) :
    nodes.modify id f = nodes.mapTree fun k tree => if k = id then f tree else tree := by
  unfold modify mapTree
  apply List.map_congr_left
  rintro ⟨k, x⟩ -
  by_cases hk : k = id
  · simp only [hk, if_true]
  · simp only [hk, if_false]

/-- What a record settles. -/
def settledAfter (acc : List Nat) (record : TraceRecord) : List Nat :=
  match record.event with
  | .attemptEnd settled => if settled.attempt ∈ acc then acc else acc ++ [settled.attempt]
  | _ => acc

/-- What a record does to the tree of a node in the second pass. -/
def chargeTree (id : NodeId) (acc : List Nat) (tree : RecursionTree) (record : TraceRecord) :
    RecursionTree :=
  match record.event with
  | .message node message =>
    if message.role = .assistant ∧ id = node then { tree with turns := tree.turns + 1 } else tree
  | .attemptEnd settled =>
    if settled.attempt ∉ acc ∧ id = settled.node then
      { tree with usageSelf := tree.usageSelf + settled.spent }
    else tree
  | _ => tree

theorem chargeNode_eq (acc : List Nat) (nodes : Nodes) (record : TraceRecord) :
    chargeNode (acc, nodes) record = (settledAfter acc record,
      nodes.mapTree fun id tree => chargeTree id acc tree record) := by
  unfold chargeNode settledAfter chargeTree
  cases hevent : record.event with
  | message node message =>
    by_cases hrole : message.role = .assistant
    · simp only [hrole, if_true, true_and, Nodes.modify_eq]
    · simp only [hrole, if_false, false_and, Nodes.mapTree_id]
  | attemptEnd settled =>
    by_cases hmem : settled.attempt ∈ acc
    · simp only [hmem, if_true, not_true, false_and, if_false, Nodes.mapTree_id]
    · simp only [hmem, if_false, not_false_iff, true_and, Nodes.modify_eq]
  | _ => simp only [Nodes.mapTree_id]

/-- What the records do to the tree of a node in the second pass. -/
def chargeAll (id : NodeId) : List Nat → RecursionTree → List TraceRecord → RecursionTree
  | _, tree, [] => tree
  | acc, tree, record :: records =>
    chargeAll id (settledAfter acc record) (chargeTree id acc tree record) records

theorem foldl_chargeNode (records : List TraceRecord) (acc : List Nat) (nodes : Nodes) :
    (records.foldl chargeNode (acc, nodes)).2 =
      nodes.mapTree fun id tree => chargeAll id acc tree records := by
  induction records generalizing acc nodes with
  | nil => exact (Nodes.mapTree_id nodes).symm
  | cons record records ih =>
    rw [List.foldl_cons, chargeNode_eq, ih, Nodes.mapTree_mapTree]
    rfl

/-- The tree of a node with its outcome. -/
def RecursionTree.finish (tree : RecursionTree) (outcome : AgentOutcome) : RecursionTree :=
  { tree with
    status := some outcome.status
    turns := outcome.turns
    usageSelf := outcome.usageSelf }

/-- What a record does to the tree of a node in the third pass. -/
def endTree (id : NodeId) (tree : RecursionTree) (record : TraceRecord) : RecursionTree :=
  match record.event with
  | .nodeEnd outcome => if id = outcome.node then tree.finish outcome else tree
  | _ => tree

theorem foldl_endNode (records : List TraceRecord) (nodes : Nodes) :
    records.foldl endNode nodes =
      nodes.mapTree fun id tree => records.foldl (endTree id) tree := by
  induction records generalizing nodes with
  | nil => exact (Nodes.mapTree_id nodes).symm
  | cons record records ih =>
    have hone : endNode nodes record = nodes.mapTree fun id tree => endTree id tree record := by
      unfold endNode endTree
      cases hevent : record.event with
      | nodeEnd outcome =>
        simp only [Nodes.modify_eq]
        rfl
      | _ => simp only [Nodes.mapTree_id]
    rw [List.foldl_cons, hone, ih, Nodes.mapTree_mapTree]
    rfl

/-- The entry of a node after the three passes. -/
def NodeStart.collected (start : NodeStart) (records : List TraceRecord) : Entry :=
  { start.entry with
    tree := records.foldl (endTree start.node)
      (chargeAll start.node [] start.entry.tree records) }

theorem collectNodes_eq {records : List TraceRecord}
    (h : ((starts (records.map TraceRecord.event)).map NodeStart.node).Nodup) :
    ∃ nodes, collectNodes records = .ok nodes ∧
      nodes.Perm ((starts (records.map TraceRecord.event)).map fun start =>
        (start.node, start.collected records)) := by
  have hfrom : ((([] : Nodes).map Prod.fst) ++
      (starts (records.map TraceRecord.event)).map NodeStart.node).Nodup := h
  obtain ⟨nodes, hfold, hperm⟩ := foldlM_startNode hfrom
  refine ⟨_, by rw [collectNodes, hfold]; rfl, ?_⟩
  show List.Perm (records.foldl endNode (records.foldl chargeNode ([], nodes)).2) _
  rw [foldl_chargeNode, foldl_endNode, Nodes.mapTree_mapTree]
  refine (hperm.map _).trans ?_
  rw [List.nil_append, List.map_map]
  exact .refl _

/-! ### What is collected of one node -/

/-- What the start of a node says of it. -/
def RecursionTree.header (tree : RecursionTree) :
    NodeId × String × String × String × Option Nat :=
  (tree.id, tree.kind, tree.name, tree.model, tree.originCell)

theorem chargeTree_keeps (id : NodeId) (acc : List Nat) (tree : RecursionTree)
    (record : TraceRecord) : (chargeTree id acc tree record).header = tree.header ∧
      (chargeTree id acc tree record).status = tree.status := by
  unfold chargeTree
  cases record.event with
  | message node message =>
    simp only
    split
    · exact ⟨rfl, rfl⟩
    · exact ⟨rfl, rfl⟩
  | attemptEnd settled =>
    simp only
    split
    · exact ⟨rfl, rfl⟩
    · exact ⟨rfl, rfl⟩
  | _ => exact ⟨rfl, rfl⟩

theorem chargeAll_keeps (id : NodeId) (acc : List Nat) (tree : RecursionTree)
    (records : List TraceRecord) : (chargeAll id acc tree records).header = tree.header ∧
      (chargeAll id acc tree records).status = tree.status := by
  induction records generalizing acc tree with
  | nil => exact ⟨rfl, rfl⟩
  | cons record records ih =>
    obtain ⟨hheader, hstatus⟩ := chargeTree_keeps id acc tree record
    obtain ⟨hheader', hstatus'⟩ := ih (settledAfter acc record) (chargeTree id acc tree record)
    exact ⟨hheader'.trans hheader, hstatus'.trans hstatus⟩

/-- How often a node took a turn. -/
def turnsOf (id : NodeId) (events : List TraceEvent) : Nat :=
  events.countP fun
    | .message node message => decide (message.role = .assistant ∧ id = node)
    | _ => false

/-- With every attempt settled once, a node counts its own turns and is charged for
    its own attempts. -/
theorem chargeAll_eq {id : NodeId} {records : List TraceRecord} {acc : List Nat}
    {tree : RecursionTree}
    (h : (acc ++
      (settlements (records.map TraceRecord.event)).map AttemptEnd.attempt).Nodup) :
    chargeAll id acc tree records =
      { tree with
        turns := tree.turns + turnsOf id (records.map TraceRecord.event)
        usageSelf := tree.usageSelf + spentBy id (records.map TraceRecord.event) } := by
  induction records generalizing acc tree with
  | nil =>
    cases tree
    simp [chargeAll, turnsOf, spentBy, settlements]
  | cons record records ih =>
    rw [chargeAll, List.map_cons]
    cases hevent : record.event with
    | attemptEnd settled =>
      have hsettled : settlements (.attemptEnd settled :: records.map TraceRecord.event) =
          settled :: settlements (records.map TraceRecord.event) := rfl
      rw [List.map_cons, hevent, hsettled, List.map_cons] at h
      -- The attempt is new, so it is charged and remembered.
      have hnew : settled.attempt ∉ acc := by
        intro hmem
        have hdisjoint := List.disjoint_of_nodup_append h
        exact hdisjoint hmem List.mem_cons_self
      have hafter : settledAfter acc record = acc ++ [settled.attempt] := by
        simp only [settledAfter, hevent, hnew, if_false]
      have hturns : turnsOf id (.attemptEnd settled :: records.map TraceRecord.event) =
          turnsOf id (records.map TraceRecord.event) := by
        simp [turnsOf]
      rw [hafter, ih (by rwa [List.append_assoc, List.singleton_append]), hturns]
      unfold spentBy
      rw [hsettled, List.filter_cons]
      simp only [chargeTree, hevent, hnew, not_false_iff, true_and]
      by_cases hid : id = settled.node
      · rw [if_pos hid, if_pos (by rw [hid]; exact beq_self_eq_true _), List.map_cons,
          List.sum_cons, add_assoc]
      · rw [if_neg hid, if_neg (by intro hno; exact hid (eq_of_beq hno).symm)]
    | message node message =>
      have hafter : settledAfter acc record = acc := by
        simp only [settledAfter, hevent]
      have hspent : spentBy id (.message node message :: records.map TraceRecord.event) =
          spentBy id (records.map TraceRecord.event) := rfl
      rw [List.map_cons, hevent] at h
      have hturns : turnsOf id (.message node message :: records.map TraceRecord.event) =
          turnsOf id (records.map TraceRecord.event) +
            if message.role = .assistant ∧ id = node then 1 else 0 := by
        simp [turnsOf, List.countP_cons]
      rw [hafter, ih h, hspent, hturns]
      by_cases hturn : message.role = .assistant ∧ id = node
      · simp only [chargeTree, hevent, if_pos hturn]
        rw [Nat.add_assoc, Nat.add_comm 1]
      · simp only [chargeTree, hevent, if_neg hturn, Nat.add_zero]
    | _ =>
      have hafter : settledAfter acc record = acc := by
        simp only [settledAfter, hevent]
      have hsame : chargeTree id acc tree record = tree := by
        simp only [chargeTree, hevent]
      rw [List.map_cons, hevent] at h
      rw [hafter, hsame, ih h]
      simp only [turnsOf, List.countP_cons, Bool.false_eq_true, if_false, Nat.add_zero]
      rfl

theorem chargeAll_usage {id : NodeId} {records : List TraceRecord} {acc : List Nat}
    {tree : RecursionTree}
    (h : (acc ++
      (settlements (records.map TraceRecord.event)).map AttemptEnd.attempt).Nodup) :
    (chargeAll id acc tree records).usageSelf =
      tree.usageSelf + spentBy id (records.map TraceRecord.event) :=
  congrArg RecursionTree.usageSelf (chargeAll_eq h)

/-- In the third pass a node sees its own ends only. -/
theorem foldl_endTree (id : NodeId) (records : List TraceRecord) (tree : RecursionTree) :
    records.foldl (endTree id) tree =
      (endsOf id (records.map TraceRecord.event)).foldl RecursionTree.finish tree := by
  induction records generalizing tree with
  | nil => rfl
  | cons record records ih =>
    rw [List.foldl_cons, ih, List.map_cons]
    cases hevent : record.event with
    | nodeEnd outcome =>
      by_cases hid : id = outcome.node
      · have hends : endsOf id (.nodeEnd outcome :: records.map TraceRecord.event) =
            outcome :: endsOf id (records.map TraceRecord.event) := by
          simp only [endsOf, List.filterMap_cons, hid, if_true]
        rw [hends, List.foldl_cons]
        simp only [endTree, hevent, hid, if_true]
      · have hends : endsOf id (.nodeEnd outcome :: records.map TraceRecord.event) =
            endsOf id (records.map TraceRecord.event) := by
          simp only [endsOf, List.filterMap_cons, hid, if_false]
        rw [hends]
        simp only [endTree, hevent, hid, if_false]
    | _ =>
      simp only [endTree, hevent]
      rfl

/-- What a transcript needs to be replayed. -/
structure Replayable (events : List TraceEvent) : Prop where
  starts : ((starts events).map NodeStart.node).Nodup
  /-- Each parent started, and has a smaller id. -/
  parents : ∀ start ∈ Trace.starts events, ∀ p, start.parent = some p →
    p < start.node ∧ ∃ above ∈ Trace.starts events, above.node = p
  attempts : ((settlements events).map AttemptEnd.attempt).Nodup
  ends : ∀ id, (endsOf id events).length ≤ 1

theorem collected_header (start : NodeStart) (records : List TraceRecord) :
    (start.collected records).tree.header =
      (start.node, start.kind, start.name, start.model, start.originCell) := by
  have hfinish : ∀ (outcomes : List AgentOutcome) (tree : RecursionTree),
      (outcomes.foldl RecursionTree.finish tree).header = tree.header := by
    intro outcomes
    induction outcomes with
    | nil => exact fun tree => rfl
    | cons outcome outcomes ih => exact fun tree => ih (tree.finish outcome)
  unfold NodeStart.collected
  rw [foldl_endTree, hfinish, (chargeAll_keeps _ _ _ _).1]
  rfl

/-- Collecting gives no node a child. -/
theorem collected_children (start : NodeStart) (records : List TraceRecord) :
    (start.collected records).tree.children = [] := by
  have hcharge : ∀ (acc : List Nat) (tree : RecursionTree),
      (chargeAll start.node acc tree records).children = tree.children := by
    induction records with
    | nil => exact fun acc tree => rfl
    | cons record records ih =>
      intro acc tree
      rw [chargeAll, ih, chargeTree]
      split
      · split <;> rfl
      · split <;> rfl
      · rfl
  have hfinish : ∀ (outcomes : List AgentOutcome) (tree : RecursionTree),
      (outcomes.foldl RecursionTree.finish tree).children = tree.children := by
    intro outcomes
    induction outcomes with
    | nil => exact fun tree => rfl
    | cons outcome outcomes ih => exact fun tree => ih (tree.finish outcome)
  unfold NodeStart.collected
  rw [foldl_endTree, hfinish, hcharge]
  rfl

/-- A node that has ended has the accounts of its outcome. -/
theorem collected_ended {start : NodeStart} {records : List TraceRecord}
    (h : Replayable (records.map TraceRecord.event)) {outcome : AgentOutcome}
    (hend : outcome ∈ endsOf start.node (records.map TraceRecord.event)) :
    (start.collected records).tree.status = some outcome.status ∧
      (start.collected records).tree.turns = outcome.turns ∧
      (start.collected records).tree.usageSelf = outcome.usageSelf := by
  have hone : endsOf start.node (records.map TraceRecord.event) = [outcome] := by
    have hlen := h.ends start.node
    match hends : endsOf start.node (records.map TraceRecord.event) with
    | [] =>
      rw [hends] at hend
      cases hend
    | [o] =>
      rw [hends] at hend
      rw [List.mem_singleton.mp hend]
    | _ :: _ :: _ =>
      rw [hends, List.length_cons, List.length_cons] at hlen
      omega
  unfold NodeStart.collected
  rw [foldl_endTree, hone]
  exact ⟨rfl, rfl, rfl⟩

/-- One that has not has spent what its settled attempts did. -/
theorem collected_running {start : NodeStart} {records : List TraceRecord}
    (h : Replayable (records.map TraceRecord.event))
    (hend : endsOf start.node (records.map TraceRecord.event) = []) :
    (start.collected records).tree.status = none ∧
      (start.collected records).tree.usageSelf =
        spentBy start.node (records.map TraceRecord.event) := by
  unfold NodeStart.collected
  rw [foldl_endTree, hend]
  refine ⟨(chargeAll_keeps _ _ _ _).2, ?_⟩
  show (chargeAll _ _ _ _).usageSelf = _
  rw [chargeAll_usage (by rw [List.nil_append]; exact h.attempts)]
  exact zero_add _

/-! ### Reconstruction -/

/-- The map and the forest of a transcript that can be replayed. -/
structure Collected (records : List TraceRecord) (nodes : Nodes)
    (forest : List RecursionTree) : Prop where
  entries : nodes.Perm ((starts (records.map TraceRecord.event)).map fun start =>
    (start.node, start.collected records))
  keyed : nodes.Keyed
  ordered : Forest.Ordered nodes.up
  roots : forest.map RecursionTree.id = nodes.children none
  built : ∀ tree ∈ forest, Built nodes tree

/-- The links of the map are those of the starts. -/
theorem up_eq_some {records : List TraceRecord} {nodes : Nodes} (hkeys : nodes.Keyed)
    (hnodes : nodes.Perm ((starts (records.map TraceRecord.event)).map fun start =>
      (start.node, start.collected records))) {id : NodeId} {link : Option NodeId} :
    nodes.up id = some link ↔ ∃ start ∈ starts (records.map TraceRecord.event),
      start.node = id ∧ start.parent = link := by
  unfold Nodes.up
  rw [Option.map_eq_some_iff]
  constructor
  · rintro ⟨e, he, rfl⟩
    have hmem := hnodes.mem_iff.mp ((Objects.lookup_eq_some_iff hkeys).mp he)
    obtain ⟨start, hstart, heq⟩ := List.mem_map.mp hmem
    obtain ⟨rfl, rfl⟩ := Prod.mk.inj heq
    exact ⟨start, hstart, rfl, rfl⟩
  · rintro ⟨start, hstart, rfl, rfl⟩
    refine ⟨start.collected records, ?_, rfl⟩
    apply (Objects.lookup_eq_some_iff hkeys).mpr
    exact hnodes.mem_iff.mpr (List.mem_map.mpr ⟨start, hstart, rfl⟩)

/-- Reconstruction succeeds on a transcript that can be replayed. -/
theorem reconstructTree_ok {records : List TraceRecord}
    (h : Replayable (records.map TraceRecord.event)) :
    ∃ nodes forest, reconstructTree records = some (.ok forest) ∧
      Collected records nodes forest := by
  obtain ⟨nodes, hcollect, hperm⟩ := collectNodes_eq h.starts
  have hkeys : nodes.Keyed := by
    apply (hperm.map Prod.fst).nodup_iff.mpr
    rw [List.map_map]
    exact h.starts
  have hup : Forest.Ordered nodes.up := by
    intro id p hlink
    obtain ⟨start, hstart, rfl, hparent⟩ := (up_eq_some hkeys hperm).mp hlink
    obtain ⟨hlt, above, habove, rfl⟩ := h.parents start hstart p hparent
    refine ⟨hlt, ?_⟩
    rw [(up_eq_some hkeys hperm).mpr ⟨above, habove, rfl, rfl⟩]
    rfl
  have hlabels : nodes.Labelled := by
    intro x hx
    obtain ⟨start, -, rfl⟩ := List.mem_map.mp (hperm.mem_iff.mp hx)
    exact congrArg Prod.fst (collected_header start records)
  have hknown : ∀ x ∈ nodes, (nodes.lookup x.1).isSome := by
    intro x hx
    rw [(Objects.lookup_eq_some_iff hkeys).mpr hx]
    rfl
  -- Neither test fails, and then every root is built.
  have hcycles : nodes.forM (fun x => checkCycle nodes (nodes.length + 1) [] (some x.1)) =
      .ok () := by
    apply Checks.forM_ok
    intro x hx
    refine checkCycle_ok hup.ranked (hknown x hx) ?_ fun k hk => nomatch hk
    exact Nat.le_trans List.countP_le_length (Nat.le_succ _)
  have hroots : ∀ id ∈ nodes.children none, ∃ tree, build nodes nodes.length id = some tree ∧
      tree.id = id ∧ Built nodes tree := by
    intro id hid
    refine build_ok hkeys hlabels hup.ranked ?_ List.countP_le_length
    have hlink := hkeys.mem_children.mp hid
    rw [← Option.isSome_map (f := Entry.parent), show (nodes.lookup id).map _ = _ from hlink]
    rfl
  obtain ⟨forest, hmap, hids, hbuilt⟩ := built_list hroots
  refine ⟨nodes, forest, ?_, ⟨hperm, hkeys, hup, hids, hbuilt⟩⟩
  have hchecked : (do
      let nodes ← collectNodes records
      checkParents nodes
      nodes.forM fun x => checkCycle nodes (nodes.length + 1) [] (some x.1)
      return nodes : Except ReadError Nodes) = .ok nodes := by
    rw [hcollect]
    show (checkParents nodes).bind _ = _
    rw [checkParents_ok hkeys fun id p hlink => (hup id p hlink).2]
    show (nodes.forM fun x => checkCycle nodes (nodes.length + 1) [] (some x.1)).bind _ = _
    rw [hcycles]
    rfl
  unfold reconstructTree
  simp only
  rw [show (do
      let nodes ← collectNodes records
      checkParents nodes
      nodes.forM fun x => checkCycle nodes (nodes.length + 1) [] (some x.1)
      return nodes : Except ReadError Nodes) = _ from hchecked]
  simp only [hmap, Option.map_some]

end Kyora.Trace
