import Kyora.Trace.Replay

/-! # Reconstruction of arbitrary records

  `build` takes each node out of the map of the source and panics when it is
  not there. Here the map is threaded through, for records that need not come
  from a run: either one of the three checks fails, or the map holds every node
  that `build` asks for, exactly when it asks.
-/

namespace Kyora.Trace

/-! ### The builder with its map -/

/-- `BTreeMap::remove`. -/
def Nodes.remove (nodes : Nodes) (id : NodeId) : Option (Entry × Nodes) :=
  (nodes.lookup id).map fun e => (e, nodes.filter fun x => x.1 != id)

/-- What the loop over the children does with a child that is built. -/
def RecursionTree.adopt (tree child : RecursionTree) : RecursionTree :=
  { tree with
    usageSubtree := tree.usageSubtree + child.usageSubtree
    children := tree.children ++ [child] }

/-- One round of a loop that builds nodes from a map and keeps what is left of it. -/
def buildNext {α : Type} (build : NodeId → Nodes → Option (RecursionTree × Nodes))
    (keep : α → RecursionTree → α) (acc : α × Nodes) (id : NodeId) : Option (α × Nodes) :=
  (build id acc.2).map fun r => (keep acc.1 r.1, r.2)

/-- `build`, with the map it takes the nodes from; `none` is its panic. Each call
    takes a node out, so fuel for every node is enough. -/
def buildFrom (children : Option NodeId → List NodeId) :
    Nat → NodeId → Nodes → Option (RecursionTree × Nodes)
  | 0, _, _ => none
  | fuel + 1, id, nodes =>
    (nodes.remove id).bind fun (e, nodes) =>
      (children (some id)).foldlM (buildNext (buildFrom children fuel) RecursionTree.adopt)
        ({ e.tree with usageSubtree := e.tree.usageSelf }, nodes)

/-- The map after the three passes and the checks. -/
def checkedNodes (records : List TraceRecord) : Except ReadError Nodes := do
  let nodes ← collectNodes records
  checkParents nodes
  nodes.forM fun (id, _) => checkCycle nodes (nodes.length + 1) [] (some id)
  return nodes

/-- `reconstruct_tree`. -/
def reconstruct (records : List TraceRecord) :
    Option (Except ReadError (List RecursionTree)) :=
  match checkedNodes records with
  | .error error => some (.error error)
  | .ok nodes =>
    ((nodes.children none).foldlM
      (buildNext (buildFrom nodes.children nodes.length) fun trees tree => trees ++ [tree])
      ([], nodes)).map fun acc => .ok acc.1

theorem reconstructTree_eq (records : List TraceRecord) :
    reconstructTree records = match checkedNodes records with
      | .error error => some (.error error)
      | .ok nodes => ((nodes.children none).mapM (build nodes nodes.length)).map .ok := rfl

/-! ### What is left in the map -/

/-- The map without some nodes. -/
def Nodes.without (nodes : Nodes) (ids : List NodeId) : Nodes :=
  nodes.filter fun x => decide (x.1 ∉ ids)

theorem Nodes.without_nil (nodes : Nodes) : nodes.without [] = nodes := by
  unfold without
  exact List.filter_eq_self.mpr fun x _ => decide_eq_true List.not_mem_nil

theorem Nodes.without_append (nodes : Nodes) (ids ids' : List NodeId) :
    (nodes.without ids).without ids' = nodes.without (ids ++ ids') := by
  unfold without
  rw [List.filter_filter]
  apply List.filter_congr
  intro x _
  rw [← Bool.decide_and, decide_eq_decide, List.mem_append, not_or, and_comm]

theorem Nodes.remove_eq {nodes : Nodes} {id : NodeId} {e : Entry}
    (h : nodes.lookup id = some e) : nodes.remove id = some (e, nodes.without [id]) := by
  have hfilter : nodes.filter (fun x => x.1 != id) = nodes.without [id] := by
    apply List.filter_congr
    intro x _
    by_cases hx : x.1 = id
    · simp [hx]
    · simp [hx]
  rw [remove, h, Option.map_some, hfilter]

/-- The other nodes are still there. -/
theorem Nodes.lookup_without {nodes : Nodes} {ids : List NodeId} {id : NodeId} (h : id ∉ ids) :
    (nodes.without ids).lookup id = nodes.lookup id := by
  induction nodes with
  | nil => rfl
  | cons x nodes ih =>
    obtain ⟨k, e⟩ := x
    unfold without at ih ⊢
    rw [List.filter_cons]
    by_cases hk : k ∈ ids
    · -- A node that is gone is not the one looked up.
      have hne : id ≠ k := fun heq => h (heq ▸ hk)
      rw [if_neg (by simpa using hk), ih, List.lookup_cons, beq_false_of_ne hne]
    · rw [if_pos (by simpa using hk), List.lookup_cons, List.lookup_cons, ih]

/-- The ids of a tree, in the order of its rows. -/
def RecursionTree.ids (tree : RecursionTree) : List NodeId :=
  (tree.rows none).map fun r => r.2.id

/-- The ids of a list of trees. -/
def idsOf (trees : List RecursionTree) : List NodeId := trees.flatMap RecursionTree.ids

theorem rows_ids (parent : Option NodeId) (tree : RecursionTree) :
    (tree.rows parent).map (fun r => r.2.id) = tree.ids := by
  unfold RecursionTree.ids
  rw [RecursionTree.rows_eq, RecursionTree.rows_eq, List.map_cons, List.map_cons]

theorem forestRows_ids (parent : Option NodeId) (trees : List RecursionTree) :
    (forestRows parent trees).map (fun r => r.2.id) = idsOf trees := by
  unfold idsOf
  rw [forestRows_eq, List.map_flatMap]
  congr 1
  funext tree
  exact rows_ids parent tree

theorem RecursionTree.ids_eq (tree : RecursionTree) :
    tree.ids = tree.id :: idsOf tree.children := by
  unfold ids
  rw [rows_eq, List.map_cons, forestRows_ids]

/-! ### The two builders agree -/

/-- A list of trees is built one after the other, each from what the ones before
    it left. -/
theorem foldlM_buildFrom {nodes : Nodes} {fuel : Nat}
    (hone : ∀ id tree, build nodes fuel id = some tree → tree.ids.Nodup → ∀ m : Nodes,
      (∀ i ∈ tree.ids, m.lookup i = nodes.lookup i) →
      buildFrom nodes.children fuel id m = some (tree, m.without tree.ids))
    {α : Type} (f : α → RecursionTree → α) {ids : List NodeId} {trees : List RecursionTree}
    (hmap : ids.mapM (build nodes fuel) = some trees) (hnodup : (idsOf trees).Nodup)
    (a : α) (m : Nodes) (hm : ∀ i ∈ idsOf trees, m.lookup i = nodes.lookup i) :
    ids.foldlM (buildNext (buildFrom nodes.children fuel) f) (a, m) =
      some (trees.foldl f a, m.without (idsOf trees)) := by
  induction ids generalizing trees a m with
  | nil =>
    obtain rfl : [] = trees := Option.some.inj hmap
    rw [show idsOf [] = [] from rfl, Nodes.without_nil]
    rfl
  | cons id ids ih =>
    rw [List.mapM_cons] at hmap
    obtain ⟨tree, htree, hmap⟩ := Option.bind_eq_some_iff.mp hmap
    obtain ⟨rest, hrest, hmap⟩ := Option.bind_eq_some_iff.mp hmap
    obtain rfl : tree :: rest = trees := Option.some.inj hmap
    have hcons : idsOf (tree :: rest) = tree.ids ++ idsOf rest := List.flatMap_cons
    rw [hcons] at hnodup hm ⊢
    obtain ⟨hnodupTree, hnodupRest, hdisjoint⟩ := List.nodup_append.mp hnodup
    have hbuilt := hone id tree htree hnodupTree m
      fun i hi => hm i (List.mem_append_left _ hi)
    -- The siblings are not in the subtree that was taken out.
    have hleft : ∀ i ∈ idsOf rest, (m.without tree.ids).lookup i = nodes.lookup i := by
      intro i hi
      rw [Nodes.lookup_without fun hmem => hdisjoint i hmem i hi rfl]
      exact hm i (List.mem_append_right _ hi)
    rw [List.foldlM_cons, buildNext, hbuilt]
    show List.foldlM _ (f a tree, m.without tree.ids) ids = _
    rw [ih hrest hnodupRest _ _ hleft, Nodes.without_append, List.foldl_cons]

theorem foldl_adopt (tree : RecursionTree) (trees : List RecursionTree) :
    trees.foldl RecursionTree.adopt tree =
      { tree with
        usageSubtree := trees.foldl (fun sum child => sum + child.usageSubtree)
          tree.usageSubtree
        children := tree.children ++ trees } := by
  induction trees generalizing tree with
  | nil =>
    cases tree
    rw [List.foldl_nil, List.foldl_nil, List.append_nil]
  | cons child trees ih =>
    rw [List.foldl_cons, ih, List.foldl_cons]
    simp only [RecursionTree.adopt, List.append_assoc, List.singleton_append]

/-- Before the builder runs, no node has children. -/
def Nodes.Leaves (nodes : Nodes) : Prop := ∀ x ∈ nodes, x.2.tree.children = []

/-- With the nodes of its subtree in the map, a node is built as from the whole map. -/
theorem buildFrom_eq {nodes : Nodes} (hkeys : nodes.Keyed) (hlabels : nodes.Labelled)
    (hleaves : nodes.Leaves) {fuel : Nat} {id : NodeId} {tree : RecursionTree}
    (h : build nodes fuel id = some tree) (hnodup : tree.ids.Nodup) (m : Nodes)
    (hm : ∀ i ∈ tree.ids, m.lookup i = nodes.lookup i) :
    buildFrom nodes.children fuel id m = some (tree, m.without tree.ids) := by
  induction fuel generalizing id tree m with
  | zero => cases h
  | succ fuel ih =>
    rw [build] at h
    obtain ⟨e, he, h⟩ := Option.bind_eq_some_iff.mp h
    obtain ⟨trees, hmap, rfl⟩ := Option.map_eq_some_iff.mp h
    have hmem := (Objects.lookup_eq_some_iff hkeys).mp he
    have hlabel : e.tree.id = id := hlabels (id, e) hmem
    have hleaf : e.tree.children = [] := hleaves (id, e) hmem
    rw [RecursionTree.ids_eq] at hnodup hm ⊢
    obtain ⟨hnew, hnodup⟩ := List.nodup_cons.mp hnodup
    have hfound : m.lookup id = some e := by
      rw [← hlabel, hm e.tree.id List.mem_cons_self, hlabel, he]
    have hleft : ∀ i ∈ idsOf trees, (m.without [id]).lookup i = nodes.lookup i := by
      intro i hi
      have hne : i ∉ [id] := by
        rw [List.mem_singleton, ← hlabel]
        exact fun heq => hnew (heq ▸ hi)
      rw [Nodes.lookup_without hne]
      exact hm i (List.mem_cons_of_mem _ hi)
    have hfold := foldlM_buildFrom (fun id tree h hnodup m hm => ih h hnodup m hm)
      RecursionTree.adopt hmap hnodup { e.tree with usageSubtree := e.tree.usageSelf } _ hleft
    rw [buildFrom, Nodes.remove_eq hfound]
    show List.foldlM _ _ (nodes.children (some id)) = _
    rw [hfold, foldl_adopt, Nodes.without_append, ← hlabel]
    simp only [hleaf, List.nil_append, List.singleton_append]

/-! ### The map in the order of its keys -/

/-- The keys of a `BTreeMap` ascend. -/
def Nodes.Sorted (nodes : Nodes) : Prop := nodes.Pairwise fun x y => x.1 < y.1

theorem Nodes.Sorted.keyed {nodes : Nodes} (h : nodes.Sorted) : nodes.Keyed := by
  unfold Keyed
  rw [List.nodup_iff_pairwise_ne, List.pairwise_map]
  exact h.imp fun hlt => Nat.ne_of_lt hlt

/-- Of two maps with the same entries there is one. -/
theorem Nodes.Sorted.eq_of_perm {nodes nodes' : Nodes} (h : nodes.Sorted) (h' : nodes'.Sorted)
    (hperm : nodes.Perm nodes') : nodes = nodes' := by
  apply List.Perm.eq_of_pairwise _ h h' hperm
  intro x y _ _ hxy hyx
  exact absurd hxy (Nat.lt_asymm hyx)

theorem Nodes.Sorted.children {nodes : Nodes} (h : nodes.Sorted) (parent : Option NodeId) :
    (nodes.children parent).Pairwise (· < ·) := by
  unfold Nodes.children
  rw [List.pairwise_map]
  exact h.sublist List.filter_sublist

theorem Nodes.Sorted.mapTree {nodes : Nodes} (h : nodes.Sorted)
    (f : NodeId → RecursionTree → RecursionTree) : (nodes.mapTree f).Sorted := by
  unfold Sorted Nodes.mapTree
  rw [List.pairwise_map]
  exact h

/-- An insertion fails exactly on a key that is there. -/
theorem Nodes.Sorted.insert {nodes : Nodes} (h : nodes.Sorted) (id : NodeId) (e : Entry) :
    (id ∈ nodes.map Prod.fst ∧ nodes.insert id e = none) ∨
      (id ∉ nodes.map Prod.fst ∧ ∃ nodes', nodes.insert id e = some nodes' ∧ nodes'.Sorted ∧
        nodes'.Perm ((id, e) :: nodes)) := by
  induction nodes with
  | nil =>
    refine Or.inr ⟨List.not_mem_nil, [(id, e)], rfl, ?_, .refl _⟩
    exact List.pairwise_singleton _ _
  | cons x rest ih =>
    obtain ⟨k, x⟩ := x
    obtain ⟨hfirst, hrest⟩ := List.pairwise_cons.mp h
    unfold Nodes.insert
    by_cases hlt : id < k
    · -- The key goes to the front, below all others.
      have hbelow : ∀ y ∈ (k, x) :: rest, id < y.1 := by
        intro y hy
        rcases List.mem_cons.mp hy with rfl | hy
        · exact hlt
        · exact Nat.lt_trans hlt (hfirst y hy)
      rw [if_pos hlt]
      refine Or.inr ⟨?_, _, rfl, List.pairwise_cons.mpr ⟨hbelow, h⟩, .refl _⟩
      intro hmem
      obtain ⟨y, hy, heq⟩ := List.mem_map.mp hmem
      exact Nat.lt_irrefl id (heq ▸ hbelow y hy)
    · rw [if_neg hlt]
      by_cases hk : id = k
      · rw [if_pos hk]
        exact Or.inl ⟨by rw [hk]; exact List.mem_cons_self, rfl⟩
      · rw [if_neg hk]
        rcases ih hrest with ⟨hmem, hnone⟩ | ⟨hnew, nodes', hsome, hsorted, hperm⟩
        · refine Or.inl ⟨List.mem_cons_of_mem k hmem, ?_⟩
          rw [hnone, Option.map_none]
        · refine Or.inr ⟨?_, (k, x) :: nodes', by rw [hsome, Option.map_some], ?_, ?_⟩
          · rw [List.map_cons, List.mem_cons, not_or]
            exact ⟨hk, hnew⟩
          · refine List.pairwise_cons.mpr ⟨fun y hy => ?_, hsorted⟩
            rcases List.mem_cons.mp (hperm.mem_iff.mp hy) with rfl | hy
            · exact Nat.lt_of_le_of_ne (Nat.not_lt.mp hlt) (Ne.symm hk)
            · exact hfirst y hy
          · exact (hperm.cons _).trans (.swap _ _ _)

/-! ### The first pass -/

/-- The events of a transcript. -/
abbrev eventsOf (records : List TraceRecord) : List TraceEvent :=
  records.map TraceRecord.event

/-- The first pass succeeds exactly on starts that are distinct and new. -/
theorem startNode_foldlM {records : List TraceRecord} {nodes : Nodes} (h : nodes.Sorted) :
    ((nodes.map Prod.fst ++ (starts (eventsOf records)).map NodeStart.node).Nodup ∧
      ∃ nodes', records.foldlM startNode nodes = .ok nodes' ∧ nodes'.Sorted ∧
        nodes'.Perm (nodes ++
          (starts (eventsOf records)).map fun start => (start.node, start.entry))) ∨
      (¬ (nodes.map Prod.fst ++ (starts (eventsOf records)).map NodeStart.node).Nodup ∧
        ∃ error, records.foldlM startNode nodes = .error error) := by
  induction records generalizing nodes with
  | nil =>
    left
    refine ⟨?_, nodes, rfl, h, ?_⟩
    · show (nodes.map Prod.fst ++ []).Nodup
      rw [List.append_nil]
      exact h.keyed
    · show nodes.Perm (nodes ++ [])
      rw [List.append_nil]
  | cons record records ih =>
    rw [List.foldlM_cons]
    cases hevent : record.event with
    | nodeStart start =>
      have hstarts : starts (eventsOf (record :: records)) =
          start :: starts (eventsOf records) := by
        rw [eventsOf, List.map_cons, hevent]
        rfl
      rw [hstarts, List.map_cons, List.map_cons]
      rcases h.insert start.node start.entry with ⟨hmem, hnone⟩ | ⟨hnew, nodes', hsome, hsorted, hperm⟩
      · right
        constructor
        · intro hnodup
          exact (List.disjoint_of_nodup_append hnodup) hmem List.mem_cons_self
        · exact ⟨_, by simp only [startNode, hevent, hnone]; rfl⟩
      · have hkeys : (nodes'.map Prod.fst ++ (starts (eventsOf records)).map NodeStart.node).Perm
            (nodes.map Prod.fst ++
              start.node :: (starts (eventsOf records)).map NodeStart.node) :=
          ((hperm.map Prod.fst).append_right _).trans List.perm_middle.symm
        have hstep : startNode nodes record = .ok nodes' := by
          simp only [startNode, hevent, hsome]
        rw [hstep]
        rcases ih hsorted with ⟨hnodup, nodes'', hfold, hsorted', hperm'⟩ | ⟨hdup, hfold⟩
        · refine Or.inl ⟨hkeys.nodup_iff.mp hnodup, nodes'', hfold, hsorted', ?_⟩
          refine hperm'.trans ((hperm.append_right _).trans ?_)
          exact List.perm_middle.symm
        · exact Or.inr ⟨fun hnodup => hdup (hkeys.nodup_iff.mpr hnodup), hfold⟩
    | _ =>
      have hstarts : starts (eventsOf (record :: records)) = starts (eventsOf records) := by
        rw [eventsOf, List.map_cons, hevent]
        rfl
      have hstep : startNode nodes record = .ok nodes := by
        simp only [startNode, hevent]
      rw [hstarts, hstep]
      exact ih h

/-! ### What the checks find -/

/-- Some node has two starts. -/
def StartsTwice (events : List TraceEvent) : Prop :=
  ∃ id, 2 ≤ ((starts events).map NodeStart.node).count id

/-- Some started node names a parent that never started. -/
def MissesParent (events : List TraceEvent) : Prop :=
  ∃ start ∈ starts events, ∃ p, start.parent = some p ∧
    ∀ above ∈ starts events, above.node ≠ p

/-- A start of `id` names `p` as its parent. -/
def NamesParent (events : List TraceEvent) (id p : NodeId) : Prop :=
  ∃ start ∈ starts events, start.node = id ∧ start.parent = some p

/-- The parents go round in a circle somewhere. -/
def Circular (events : List TraceEvent) : Prop :=
  ∃ id, Relation.TransGen (NamesParent events) id id

/-- The map of a transcript whose nodes start once. -/
structure Gathered (records : List TraceRecord) (nodes : Nodes) : Prop where
  sorted : nodes.Sorted
  entries : nodes.Perm ((starts (eventsOf records)).map fun start =>
    (start.node, start.collected records))

theorem startsTwice_iff {events : List TraceEvent} :
    StartsTwice events ↔ ¬ ((starts events).map NodeStart.node).Nodup := by
  rw [List.nodup_iff_count_le_one, not_forall]
  constructor
  · rintro ⟨id, hid⟩
    exact ⟨id, by omega⟩
  · rintro ⟨id, hid⟩
    exact ⟨id, by omega⟩

/-- The passes succeed exactly when no node starts twice. -/
theorem collectNodes_cases (records : List TraceRecord) :
    (¬ StartsTwice (eventsOf records) ∧
      ∃ nodes, collectNodes records = .ok nodes ∧ Gathered records nodes) ∨
    (StartsTwice (eventsOf records) ∧ ∃ error, collectNodes records = .error error) := by
  rw [startsTwice_iff, not_not]
  rcases @startNode_foldlM records [] List.Pairwise.nil with
    ⟨hnodup, nodes, hfold, hsorted, hperm⟩ | ⟨hdup, error, hfold⟩
  · refine Or.inl ⟨hnodup, _, by rw [collectNodes, hfold]; rfl, ?_⟩
    show Gathered records (records.foldl endNode (records.foldl chargeNode ([], nodes)).2)
    rw [foldl_chargeNode, foldl_endNode]
    refine ⟨(hsorted.mapTree _).mapTree _, ?_⟩
    rw [Nodes.mapTree_mapTree]
    refine (hperm.map _).trans ?_
    rw [List.nil_append, List.map_map]
    exact .refl _
  · exact Or.inr ⟨hdup, error, by rw [collectNodes, hfold]; rfl⟩

section gathered

variable {records : List TraceRecord} {nodes : Nodes}

theorem Gathered.labelled (h : Gathered records nodes) : nodes.Labelled := by
  intro x hx
  obtain ⟨start, -, rfl⟩ := List.mem_map.mp (h.entries.mem_iff.mp hx)
  exact congrArg Prod.fst (collected_header start records)

/-- The links of the map are the parents the starts name. -/
theorem Gathered.isParent (h : Gathered records nodes) {id p : NodeId} :
    Forest.IsParent nodes.up id p ↔ NamesParent (eventsOf records) id p :=
  up_eq_some h.sorted.keyed h.entries

theorem Gathered.known (h : Gathered records nodes) {id : NodeId} :
    (nodes.up id).isSome ↔ ∃ start ∈ starts (eventsOf records), start.node = id := by
  rw [Option.isSome_iff_exists]
  constructor
  · rintro ⟨link, hlink⟩
    obtain ⟨start, hstart, hid, -⟩ := (up_eq_some h.sorted.keyed h.entries).mp hlink
    exact ⟨start, hstart, hid⟩
  · rintro ⟨start, hstart, hid⟩
    exact ⟨_, (up_eq_some h.sorted.keyed h.entries).mpr ⟨start, hstart, hid, rfl⟩⟩

theorem Gathered.missesParent (h : Gathered records nodes) :
    ¬ MissesParent (eventsOf records) ↔
      ∀ id p, nodes.up id = some (some p) → (nodes.up p).isSome := by
  constructor
  · intro hnone id p hlink
    obtain ⟨start, hstart, rfl, hparent⟩ := h.isParent.mp hlink
    by_contra hunknown
    refine hnone ⟨start, hstart, p, hparent, fun above habove heq => ?_⟩
    exact hunknown (h.known.mpr ⟨above, habove, heq⟩)
  · rintro hknown ⟨start, hstart, p, hparent, hnone⟩
    obtain ⟨above, habove, heq⟩ :=
      h.known.mp (hknown start.node p (h.isParent.mpr ⟨start, hstart, rfl, hparent⟩))
    exact hnone above habove heq

theorem Gathered.circular (h : Gathered records nodes) :
    Circular (eventsOf records) ↔ ∃ id, Relation.TransGen (Forest.IsParent nodes.up) id id := by
  have heq : Forest.IsParent nodes.up = NamesParent (eventsOf records) := by
    funext id p
    exact propext h.isParent
  rw [Circular, heq]

end gathered

/-! ### The cycle check -/

/-- A walk that reaches a root did not start on a cycle. -/
theorem checkCycle_acyclic {nodes : Nodes} {fuel : Nat} {seen : List NodeId} {id : NodeId}
    (h : checkCycle nodes fuel seen (some id) = .ok ()) :
    ¬ Relation.TransGen (Forest.IsParent nodes.up) id id := by
  induction fuel generalizing seen id with
  | zero => cases h
  | succ fuel ih =>
    intro hcycle
    rw [checkCycle] at h
    split at h
    · cases h
    · -- A cycle through a node is a cycle through its parent.
      obtain ⟨p, hp, hback⟩ := Relation.TransGen.head'_iff.mp hcycle
      have hparent : (nodes.lookup id).bind Entry.parent = some p := by
        obtain ⟨e, he, heq⟩ := Option.map_eq_some_iff.mp hp
        rw [he, Option.bind_some, heq]
      rw [hparent] at h
      exact ih h (Relation.TransGen.tail' hback hp)

open Classical in
/-- The number of nodes above a node. -/
noncomputable def Nodes.depth (nodes : Nodes) (id : NodeId) : Nat :=
  nodes.count fun k => decide (Relation.TransGen (Forest.IsParent nodes.up) id k)

open Classical in
/-- Without a cycle a node has more nodes above it than its parent. -/
theorem ranked_depth {nodes : Nodes}
    (hparents : ∀ id p, nodes.up id = some (some p) → (nodes.up p).isSome)
    (hacyclic : ∀ id, ¬ Relation.TransGen (Forest.IsParent nodes.up) id id) :
    Forest.Ranked nodes.up nodes.depth := by
  intro id p hlink
  have hknown := hparents id p hlink
  refine ⟨?_, hknown⟩
  rw [Nodes.up, Option.isSome_map] at hknown
  apply Nodes.count_lt _ hknown
  · exact decide_eq_true (Relation.TransGen.single hlink)
  · exact decide_eq_false (hacyclic p)
  · intro k hk
    exact decide_eq_true (Relation.TransGen.head hlink (of_decide_eq_true hk))

/-- The walks from all nodes end exactly when there is no cycle. -/
theorem cycles_ok_iff {nodes : Nodes} (hkeys : nodes.Keyed)
    (hparents : ∀ id p, nodes.up id = some (some p) → (nodes.up p).isSome) :
    (nodes.forM fun x => checkCycle nodes (nodes.length + 1) [] (some x.1)) = .ok () ↔
      ∀ id, ¬ Relation.TransGen (Forest.IsParent nodes.up) id id := by
  rw [Checks.forM_eq_ok]
  constructor
  · intro h id hcycle
    obtain ⟨p, hp, -⟩ := Relation.TransGen.head'_iff.mp hcycle
    obtain ⟨e, he, -⟩ := Option.map_eq_some_iff.mp hp
    exact checkCycle_acyclic (h (id, e) ((Objects.lookup_eq_some_iff hkeys).mp he)) hcycle
  · intro hacyclic x hx
    refine checkCycle_ok (ranked_depth hparents hacyclic) ?_ ?_ fun k hk => nomatch hk
    · rw [(Objects.lookup_eq_some_iff hkeys).mpr hx]
      rfl
    · exact Nat.le_trans List.countP_le_length (Nat.le_succ _)

/-- The second check fails exactly on a parent that is not there. -/
theorem checkParents_cases {nodes : Nodes} (hkeys : nodes.Keyed) :
    ((∀ id p, nodes.up id = some (some p) → (nodes.up p).isSome) ∧
      checkParents nodes = .ok ()) ∨
    ((¬ ∀ id p, nodes.up id = some (some p) → (nodes.up p).isSome) ∧
      ∃ error, checkParents nodes = .error error) := by
  by_cases hparents : ∀ id p, nodes.up id = some (some p) → (nodes.up p).isSome
  · exact Or.inl ⟨hparents, checkParents_ok hkeys hparents⟩
  · refine Or.inr ⟨hparents, ?_⟩
    simp only [not_forall] at hparents
    obtain ⟨id, p, hlink, hunknown⟩ := hparents
    obtain ⟨e, he, hparent⟩ := Option.map_eq_some_iff.mp hlink
    have hfound : (nodes.find? fun x =>
        x.2.parent.any fun p => (nodes.lookup p).isNone).isSome := by
      rw [List.find?_isSome]
      refine ⟨(id, e), (Objects.lookup_eq_some_iff hkeys).mp he, ?_⟩
      rw [Nodes.up, Option.isSome_map] at hunknown
      show e.parent.any _ = true
      rw [hparent, Option.any_some, ← Option.not_isSome, Bool.not_eq_true']
      exact Bool.eq_false_iff.mpr hunknown
    obtain ⟨x, hx⟩ := Option.isSome_iff_exists.mp hfound
    exact ⟨_, by unfold checkParents; rw [show nodes.find? _ = some x from hx]⟩

/-- The three checks fail exactly on what they look for. -/
theorem checkedNodes_cases (records : List TraceRecord) :
    (¬ StartsTwice (eventsOf records) ∧ ¬ MissesParent (eventsOf records) ∧
      ¬ Circular (eventsOf records) ∧
      ∃ nodes, checkedNodes records = .ok nodes ∧ Gathered records nodes) ∨
    ((StartsTwice (eventsOf records) ∨ MissesParent (eventsOf records) ∨
      Circular (eventsOf records)) ∧ ∃ error, checkedNodes records = .error error) := by
  rcases collectNodes_cases records with ⟨honce, nodes, hcollect, hnodes⟩ | ⟨htwice, error, hcollect⟩
  · have hchecked : checkedNodes records = (checkParents nodes).bind fun _ =>
        (nodes.forM fun x => checkCycle nodes (nodes.length + 1) [] (some x.1)).bind fun _ =>
          .ok nodes := by
      rw [checkedNodes, hcollect]
      rfl
    rcases checkParents_cases hnodes.sorted.keyed with ⟨hparents, hok⟩ | ⟨hmissing, error, herror⟩
    · rw [hok] at hchecked
      have hcycles := cycles_ok_iff hnodes.sorted.keyed hparents
      by_cases hcircular : Circular (eventsOf records)
      · refine Or.inr ⟨Or.inr (Or.inr hcircular), ?_⟩
        obtain ⟨id, hid⟩ := hnodes.circular.mp hcircular
        cases hforM : nodes.forM fun x => checkCycle nodes (nodes.length + 1) [] (some x.1) with
        | error error => exact ⟨error, by rw [hchecked, hforM]; rfl⟩
        | ok u => exact absurd hid (hcycles.mp hforM id)
      · have hacyclic : ∀ id, ¬ Relation.TransGen (Forest.IsParent nodes.up) id id :=
          fun id hid => hcircular (hnodes.circular.mpr ⟨id, hid⟩)
        refine Or.inl ⟨honce, hnodes.missesParent.mpr hparents, hcircular, nodes, ?_, hnodes⟩
        rw [hchecked, hcycles.mpr hacyclic]
        rfl
    · refine Or.inr ⟨Or.inr (Or.inl ?_), error, by rw [hchecked, herror]; rfl⟩
      exact not_not.mp fun hno => hmissing (hnodes.missesParent.mp hno)
  · exact Or.inr ⟨Or.inl htwice, error, by rw [checkedNodes, hcollect]; rfl⟩

/-! ### The forest -/

/-- Every started node once, under the parent its start names, siblings in the
    order of their ids, and each with what its subtree used. -/
structure Reconstructed (events : List TraceEvent) (forest : List RecursionTree) : Prop where
  placed : ((forestRows none forest).map fun r => (r.2.id, r.1)).Perm
    ((starts events).map fun start => (start.node, start.parent))
  roots : (forest.map RecursionTree.id).Pairwise (· < ·)
  siblings : ∀ r ∈ forestRows none forest, (r.2.children.map RecursionTree.id).Pairwise (· < ·)
  subtree : ∀ r ∈ forestRows none forest,
    r.2.usageSubtree = ((r.2.rows r.1).map fun x => x.2.usageSelf).sum

/-- The subtree usage of a built tree is the sum over its rows. -/
theorem Built.sum_rows {nodes : Nodes} {tree : RecursionTree} (h : Built nodes tree)
    (parent : Option NodeId) :
    tree.usageSubtree = ((tree.rows parent).map fun x => x.2.usageSelf).sum := by
  induction h generalizing parent with
  | node id e trees he hid hids htrees ih =>
    have hchildren : ∀ above, ((forestRows above trees).map fun x => x.2.usageSelf).sum =
        (trees.map RecursionTree.usageSubtree).sum := by
      intro above
      rw [forestRows_eq, List.map_flatMap, List.flatMap_def, List.sum_flatten,
        List.map_map]
      exact congrArg List.sum (List.map_congr_left fun tree htree => (ih tree htree above).symm)
    rw [RecursionTree.rows_eq, List.map_cons, List.sum_cons, hchildren]
    exact foldl_subtree trees _

theorem Built.sorted {nodes : Nodes} (hsorted : nodes.Sorted) {tree : RecursionTree}
    (h : Built nodes tree) : (tree.children.map RecursionTree.id).Pairwise (· < ·) := by
  cases h with
  | node id e trees he hid hids htrees =>
    show (trees.map RecursionTree.id).Pairwise (· < ·)
    rw [hids]
    exact hsorted.children (some id)

/-- The forest of a map that passed the checks, with each builder. -/
theorem Gathered.forest {records : List TraceRecord} {nodes : Nodes}
    (h : Gathered records nodes) (hmisses : ¬ MissesParent (eventsOf records))
    (hcircular : ¬ Circular (eventsOf records)) :
    ∃ forest, (nodes.children none).mapM (build nodes nodes.length) = some forest ∧
      (idsOf forest).Nodup ∧ Reconstructed (eventsOf records) forest := by
  have hkeys := h.sorted.keyed
  have hup : Forest.Ranked nodes.up nodes.depth :=
    ranked_depth (h.missesParent.mp hmisses) fun id hid => hcircular (h.circular.mpr ⟨id, hid⟩)
  have hroots : ∀ id ∈ nodes.children none, ∃ tree, build nodes nodes.length id = some tree ∧
      tree.id = id ∧ Built nodes tree := by
    intro id hid
    refine build_ok hkeys h.labelled hup ?_ List.countP_le_length
    have hlink := hkeys.mem_children.mp hid
    rw [← Option.isSome_map (f := Entry.parent), show (nodes.lookup id).map _ = _ from hlink]
    rfl
  obtain ⟨forest, hmap, hids, hbuilt⟩ := built_list hroots
  obtain ⟨hrows, hmem, hnodup⟩ := forest_rows hkeys hup hids hbuilt
  refine ⟨forest, hmap, by rwa [← forestRows_ids none], ?_⟩
  constructor
  · -- Both lists have each id once, and the same members.
    have hfst : ((forestRows none forest).map fun r => (r.2.id, r.1)).map Prod.fst =
        (forestRows none forest).map fun r => r.2.id := by
      rw [List.map_map]
      rfl
    have hstarts : (((starts (eventsOf records)).map fun start =>
        (start.node, start.parent)).map Prod.fst).Nodup := by
      have hentries := (h.entries.map Prod.fst).nodup_iff.mp hkeys
      rw [List.map_map] at hentries ⊢
      exact hentries
    apply (List.perm_ext_iff_of_nodup (.of_map Prod.fst (by rwa [hfst]))
      (.of_map Prod.fst hstarts)).mpr
    rintro ⟨id, link⟩
    have hstart := @up_eq_some records nodes hkeys h.entries id link
    constructor
    · intro hrow
      obtain ⟨r, hr, heq⟩ := List.mem_map.mp hrow
      obtain ⟨rfl, rfl⟩ := Prod.mk.inj heq
      obtain ⟨start, hmemStart, hnode, hparent⟩ := hstart.mp (hrows r hr).2
      exact List.mem_map.mpr ⟨start, hmemStart, by rw [hnode, hparent]⟩
    · intro hrow
      obtain ⟨start, hmemStart, heq⟩ := List.mem_map.mp hrow
      obtain ⟨hnode, hparent⟩ := Prod.mk.inj heq
      have hlink := hstart.mpr ⟨start, hmemStart, hnode, hparent⟩
      obtain ⟨r, hr, rfl⟩ := List.mem_map.mp ((hmem id).mpr (by rw [hlink]; rfl))
      have hsame : some r.1 = some link := (hrows r hr).2.symm.trans hlink
      exact List.mem_map.mpr ⟨r, hr, by rw [Option.some.inj hsame]⟩
  · rw [hids]
    exact h.sorted.children none
  · exact fun r hr => (hrows r hr).1.sorted h.sorted
  · exact fun r hr => (hrows r hr).1.sum_rows r.1

theorem Gathered.leaves {records : List TraceRecord} {nodes : Nodes}
    (h : Gathered records nodes) : nodes.Leaves := by
  intro x hx
  obtain ⟨start, -, rfl⟩ := List.mem_map.mp (h.entries.mem_iff.mp hx)
  exact collected_children start records

/-- Taking the nodes out of the map changes nothing: `build` asks for each once. -/
theorem reconstruct_eq (records : List TraceRecord) :
    reconstruct records = reconstructTree records := by
  rw [reconstructTree_eq, reconstruct]
  rcases checkedNodes_cases records with
    ⟨-, hmisses, hcircular, nodes, hchecked, hnodes⟩ | ⟨-, error, hchecked⟩
  · obtain ⟨forest, hmap, hnodup, -⟩ := hnodes.forest hmisses hcircular
    have hfold := foldlM_buildFrom
      (fun id tree hbuild hids m hm =>
        buildFrom_eq hnodes.sorted.keyed hnodes.labelled hnodes.leaves hbuild hids m hm)
      (fun trees tree => trees ++ [tree]) hmap hnodup [] nodes fun i _ => rfl
    have happend : ∀ xs ys : List RecursionTree,
        ys.foldl (fun trees tree => trees ++ [tree]) xs = xs ++ ys := by
      intro xs ys
      induction ys generalizing xs with
      | nil => rw [List.foldl_nil, List.append_nil]
      | cons y ys ih => rw [List.foldl_cons, ih, List.append_assoc, List.singleton_append]
    simp only [hchecked]
    rw [hfold, hmap, happend, List.nil_append]
    rfl
  · simp only [hchecked]

/-- The three defects that reconstruction finds. -/
def Defective (events : List TraceEvent) : Prop :=
  StartsTwice events ∨ MissesParent events ∨ Circular events

/-- Reconstruction fails on a defect, and only there. -/
theorem reconstruct_cases (records : List TraceRecord) :
    (¬ Defective (eventsOf records) ∧ ∃ forest, reconstruct records = some (.ok forest) ∧
      Reconstructed (eventsOf records) forest) ∨
    (Defective (eventsOf records) ∧ ∃ error, reconstruct records = some (.error error)) := by
  rw [reconstruct_eq, reconstructTree_eq]
  rcases checkedNodes_cases records with
    ⟨honce, hmisses, hcircular, nodes, hchecked, hnodes⟩ | ⟨hfails, error, hchecked⟩
  · obtain ⟨forest, hmap, -, hforest⟩ := hnodes.forest hmisses hcircular
    refine Or.inl ⟨?_, forest, ?_, hforest⟩
    · rintro (htwice | hmiss | hcircle)
      · exact honce htwice
      · exact hmisses hmiss
      · exact hcircular hcircle
    · simp only [hchecked, hmap, Option.map_some]
  · refine Or.inr ⟨hfails, error, ?_⟩
    simp only [hchecked]

theorem reconstruct_error_iff (records : List TraceRecord) :
    (∃ error, reconstruct records = some (.error error)) ↔ Defective (eventsOf records) := by
  rcases reconstruct_cases records with ⟨hsound, forest, hok, -⟩ | ⟨hdefective, herror⟩
  · refine ⟨fun ⟨error, herror⟩ => ?_, fun h => absurd h hsound⟩
    rw [hok] at herror
    cases herror
  · exact ⟨fun _ => hdefective, fun _ => herror⟩

/-! ### The order of the records -/

section perm

variable {records records' : List TraceRecord}

theorem starts_perm (h : records.Perm records') :
    (starts (eventsOf records)).Perm (starts (eventsOf records')) :=
  (h.map TraceRecord.event).filterMap _

theorem spentBy_perm (h : records.Perm records') (id : NodeId) :
    spentBy id (eventsOf records) = spentBy id (eventsOf records') :=
  ((((h.map TraceRecord.event).filterMap _).filter _).map _).sum_eq

theorem turnsOf_perm (h : records.Perm records') (id : NodeId) :
    turnsOf id (eventsOf records) = turnsOf id (eventsOf records') :=
  (h.map TraceRecord.event).countP_eq _

/-- A node with one end at most has the same ends in any order. -/
theorem endsOf_perm (h : records.Perm records') {id : NodeId}
    (hone : (endsOf id (eventsOf records)).length ≤ 1) :
    endsOf id (eventsOf records) = endsOf id (eventsOf records') := by
  have hperm : (endsOf id (eventsOf records)).Perm (endsOf id (eventsOf records')) :=
    (h.map TraceRecord.event).filterMap _
  generalize endsOf id (eventsOf records) = ends at hone hperm
  match ends with
  | [] => exact hperm.nil_eq
  | [outcome] => exact (List.perm_singleton.mp hperm.symm).symm
  | _ :: _ :: _ =>
    rw [List.length_cons, List.length_cons] at hone
    omega

/-- What is collected of a node does not depend on the order of its records. -/
theorem collected_perm (h : records.Perm records')
    (hattempts : ((settlements (eventsOf records)).map AttemptEnd.attempt).Nodup)
    (hends : ∀ id, (endsOf id (eventsOf records)).length ≤ 1) (start : NodeStart) :
    start.collected records' = start.collected records := by
  have hsettled : (settlements (eventsOf records)).Perm (settlements (eventsOf records')) :=
    (h.map TraceRecord.event).filterMap _
  have hattempts' := (hsettled.map AttemptEnd.attempt).nodup_iff.mp hattempts
  unfold NodeStart.collected
  rw [foldl_endTree, foldl_endTree, chargeAll_eq (by rwa [List.nil_append]),
    chargeAll_eq (by rwa [List.nil_append])]
  show Entry.mk _ ((endsOf _ (eventsOf records')).foldl _ _) = _
  rw [← endsOf_perm h (hends start.node), ← turnsOf_perm h, ← spentBy_perm h]

theorem startsTwice_perm (h : records.Perm records') :
    StartsTwice (eventsOf records) ↔ StartsTwice (eventsOf records') := by
  unfold StartsTwice
  simp only [((starts_perm h).map NodeStart.node).count_eq]

/-- The map of a transcript whose nodes start once does not depend on the order. -/
theorem collectNodes_perm (h : records.Perm records')
    (hattempts : ((settlements (eventsOf records)).map AttemptEnd.attempt).Nodup)
    (hends : ∀ id, (endsOf id (eventsOf records)).length ≤ 1)
    (honce : ¬ StartsTwice (eventsOf records)) : collectNodes records' = collectNodes records := by
  rcases collectNodes_cases records with ⟨-, nodes, hcollect, hnodes⟩ | ⟨htwice, -⟩
  · rcases collectNodes_cases records' with ⟨-, nodes', hcollect', hnodes'⟩ | ⟨htwice', -⟩
    · have hentries : nodes'.Perm nodes := by
        refine hnodes'.entries.trans (.trans ?_ hnodes.entries.symm)
        simp only [collected_perm h hattempts hends]
        exact (starts_perm h).symm.map _
      rw [hcollect, hcollect', hnodes'.sorted.eq_of_perm hnodes.sorted hentries]
    · exact absurd ((startsTwice_perm h).mpr htwice') honce
  · exact absurd htwice honce

/-- With attempts settled once and nodes ended once, any order of the records gives
    the same forest, or an error in each. -/
theorem reconstruct_perm (h : records.Perm records')
    (hattempts : ((settlements (eventsOf records)).map AttemptEnd.attempt).Nodup)
    (hends : ∀ id, (endsOf id (eventsOf records)).length ≤ 1) :
    (∀ forest, reconstruct records' = some (.ok forest) ↔
      reconstruct records = some (.ok forest)) ∧
    ((∃ error, reconstruct records' = some (.error error)) ↔
      ∃ error, reconstruct records = some (.error error)) ∧
    (¬ StartsTwice (eventsOf records) → reconstruct records' = reconstruct records) := by
  by_cases htwice : StartsTwice (eventsOf records)
  · have hfails : ∃ error, reconstruct records = some (.error error) :=
      (reconstruct_error_iff records).mpr (Or.inl htwice)
    have hfails' : ∃ error, reconstruct records' = some (.error error) :=
      (reconstruct_error_iff records').mpr (Or.inl ((startsTwice_perm h).mp htwice))
    refine ⟨fun forest => ?_, iff_of_true hfails' hfails, fun honce => absurd htwice honce⟩
    obtain ⟨error, herror⟩ := hfails
    obtain ⟨error', herror'⟩ := hfails'
    rw [herror, herror']
    exact iff_of_false (fun hok => (nomatch hok)) fun hok => (nomatch hok)
  · have hsame : reconstruct records' = reconstruct records := by
      rw [reconstruct, reconstruct, checkedNodes, checkedNodes,
        collectNodes_perm h hattempts hends htwice]
    rw [hsame]
    exact ⟨fun forest => Iff.rfl, Iff.rfl, fun _ => rfl⟩

end perm

/-! ### Main result -/

end Kyora.Trace
