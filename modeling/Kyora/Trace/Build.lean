import Kyora.Trace.Tree
import Kyora.Framework.Objects
import Mathlib.Data.List.Flatten

/-! # Building the forest

  The parents of a node map form a forest. When every parent is a node and some
  rank grows from parents to children, the checks of `reconstructTree` pass,
  `build` yields a tree for each node, and the rows of all trees are the nodes
  of the map, each once.
-/

namespace Kyora.Trace

/-! ### Parents -/

namespace Nodes

/-- The parent links of a node map. -/
def up (nodes : Nodes) : Forest.Links := fun id => (nodes.lookup id).map Entry.parent

/-- A map has each key once. -/
def Keyed (nodes : Nodes) : Prop := (nodes.map Prod.fst).Nodup

theorem Keyed.mem_children {nodes : Nodes} (h : nodes.Keyed) {parent : Option NodeId}
    {id : NodeId} : id ∈ nodes.children parent ↔ nodes.up id = some parent := by
  unfold children up
  rw [List.mem_map, Option.map_eq_some_iff]
  constructor
  · rintro ⟨⟨k, e⟩, hmem, rfl⟩
    obtain ⟨hmem, hparent⟩ := List.mem_filter.mp hmem
    exact ⟨e, (Objects.lookup_eq_some_iff h).mpr hmem, eq_of_beq hparent⟩
  · rintro ⟨e, hlookup, rfl⟩
    refine ⟨(id, e), List.mem_filter.mpr ⟨(Objects.lookup_eq_some_iff h).mp hlookup, ?_⟩, rfl⟩
    exact beq_self_eq_true e.parent

theorem Keyed.nodup_children {nodes : Nodes} (h : nodes.Keyed) (parent : Option NodeId) :
    (nodes.children parent).Nodup :=
  h.sublist (List.filter_sublist.map Prod.fst)

/-- How many nodes pass a test on their ids. -/
def count (nodes : Nodes) (p : NodeId → Bool) : Nat := nodes.countP fun x => p x.1

/-- A test that a node fails and others pass no more often counts less. -/
theorem count_lt {nodes : Nodes} {p q : NodeId → Bool} (h : ∀ id, p id = true → q id = true)
    {id : NodeId} (hid : (nodes.lookup id).isSome) (hq : q id = true) (hp : p id = false) :
    nodes.count p < nodes.count q := by
  induction nodes with
  | nil => cases hid
  | cons x nodes ih =>
    obtain ⟨k, e⟩ := x
    unfold count at ih ⊢
    rw [List.countP_cons, List.countP_cons]
    show _ + (if p k = true then 1 else 0) < _ + (if q k = true then 1 else 0)
    by_cases hk : id = k
    · subst hk
      have hle : nodes.countP (fun x => p x.1) ≤ nodes.countP fun x => q x.1 :=
        List.countP_mono_left fun x _ hx => h x.1 hx
      rw [if_pos hq, if_neg (by rw [hp]; exact Bool.false_ne_true)]
      omega
    · rw [List.lookup_cons, beq_false_of_ne hk] at hid
      have hlt := ih hid
      have hstep : (if p k = true then 1 else 0) ≤ if q k = true then 1 else 0 := by
        split
        · next hpk => rw [if_pos (h k hpk)]
        · exact Nat.zero_le _
      omega

end Nodes

/-! ### Checks -/

theorem checkParents_ok {nodes : Nodes} (hkeys : nodes.Keyed)
    (hparents : ∀ id p, nodes.up id = some (some p) → (nodes.up p).isSome) :
    checkParents nodes = .ok () := by
  have hfind : nodes.find? (fun x => x.2.parent.any fun p => (nodes.lookup p).isNone) = none := by
    rw [List.find?_eq_none]
    rintro ⟨id, e⟩ hmem
    cases hp : e.parent with
    | none => simp
    | some p =>
      have hlink : nodes.up id = some (some p) := by
        rw [Nodes.up, (Objects.lookup_eq_some_iff hkeys).mpr hmem, Option.map_some, hp]
      have hknown := hparents id p hlink
      rw [Nodes.up, Option.isSome_map] at hknown
      simp [Option.isNone_eq_false_iff.mpr hknown]
  unfold checkParents
  rw [show nodes.find? _ = none from hfind]

/-- The walk from a node meets ever smaller ranks, so it repeats no node. -/
theorem checkCycle_ok {nodes : Nodes} {rank : NodeId → Nat} (hup : Forest.Ranked nodes.up rank)
    {fuel : Nat} {seen : List NodeId} {id : NodeId} (hid : (nodes.lookup id).isSome)
    (hfuel : nodes.count (fun k => decide (rank k ≤ rank id)) ≤ fuel)
    (hseen : ∀ k ∈ seen, rank id < rank k) :
    checkCycle nodes fuel seen (some id) = .ok () := by
  induction fuel generalizing seen id with
  | zero =>
    have hlt := Nodes.count_lt (p := fun _ => false) (q := fun k => decide (rank k ≤ rank id))
      (fun _ h => nomatch h) hid (decide_eq_true (Nat.le_refl _)) rfl
    omega
  | succ fuel ih =>
    have hnew : id ∉ seen := fun hmem => Nat.lt_irrefl _ (hseen id hmem)
    rw [checkCycle, if_neg hnew]
    cases hp : (nodes.lookup id).bind Entry.parent with
    | none => rw [checkCycle]
    | some p =>
      obtain ⟨e, he, hparent⟩ := Option.bind_eq_some_iff.mp hp
      have hlink : nodes.up id = some (some p) := by rw [Nodes.up, he, Option.map_some, hparent]
      obtain ⟨hlt, hknown⟩ := hup id p hlink
      apply ih
      · rwa [Nodes.up, Option.isSome_map] at hknown
      · have hcount := Nodes.count_lt (p := fun k => decide (rank k ≤ rank p))
          (q := fun k => decide (rank k ≤ rank id))
          (fun k hk => decide_eq_true (Nat.le_trans (of_decide_eq_true hk) (Nat.le_of_lt hlt)))
          hid (decide_eq_true (Nat.le_refl _)) (decide_eq_false (Nat.not_le.mpr hlt))
        omega
      · intro k hk
        rcases List.mem_cons.mp hk with rfl | hk
        · exact hlt
        · exact Nat.lt_trans hlt (hseen k hk)

/-! ### Trees -/

/-- A tree that `build` makes: the entry of its node with the trees of the children. -/
inductive Built (nodes : Nodes) : RecursionTree → Prop where
  | node (id : NodeId) (e : Entry) (trees : List RecursionTree)
      (he : nodes.lookup id = some e) (hid : e.tree.id = id)
      (hids : trees.map RecursionTree.id = nodes.children (some id))
      (htrees : ∀ tree ∈ trees, Built nodes tree) :
      Built nodes
        { e.tree with
          usageSubtree := trees.foldl (fun sum child => sum + child.usageSubtree)
            e.tree.usageSelf
          children := trees }

/-- A function that succeeds on every element succeeds on the list. -/
theorem mapM_some {α β : Type} {f : α → Option β} {P : α → β → Prop} {xs : List α}
    (h : ∀ x ∈ xs, ∃ y, f x = some y ∧ P x y) :
    ∃ ys, xs.mapM f = some ys ∧ List.Forall₂ P xs ys := by
  induction xs with
  | nil => exact ⟨[], rfl, .nil⟩
  | cons x xs ih =>
    obtain ⟨y, hy, hP⟩ := h x List.mem_cons_self
    obtain ⟨ys, hys, hall⟩ := ih fun z hz => h z (List.mem_cons_of_mem x hz)
    exact ⟨y :: ys, by rw [List.mapM_cons, hy, hys]; rfl, .cons hP hall⟩

/-- Each entry is the one of its key. -/
def Nodes.Labelled (nodes : Nodes) : Prop := ∀ x ∈ nodes, x.2.tree.id = x.1

/-- A list of nodes is built when each of them is. -/
theorem built_list {nodes : Nodes} {ids : List NodeId} {f : NodeId → Option RecursionTree}
    (h : ∀ id ∈ ids, ∃ tree, f id = some tree ∧ tree.id = id ∧ Built nodes tree) :
    ∃ trees, ids.mapM f = some trees ∧ trees.map RecursionTree.id = ids ∧
      ∀ tree ∈ trees, Built nodes tree := by
  obtain ⟨trees, hmap, hall⟩ := mapM_some h
  refine ⟨trees, hmap, ?_, ?_⟩
  · clear hmap
    induction hall with
    | nil => rfl
    | cons hx _ ih => rw [List.map_cons, hx.1, ih fun id hid => h id (List.mem_cons_of_mem _ hid)]
  · clear hmap
    induction hall with
    | nil => exact fun tree htree => nomatch htree
    | cons hx _ ih =>
      intro tree htree
      rcases List.mem_cons.mp htree with rfl | htree
      · exact hx.2
      · exact ih (fun id hid => h id (List.mem_cons_of_mem _ hid)) tree htree

/-- The children of a node have larger ranks, so the fuel lasts. -/
theorem build_ok {nodes : Nodes} {rank : NodeId → Nat} (hkeys : nodes.Keyed)
    (hlabels : nodes.Labelled) (hup : Forest.Ranked nodes.up rank) {fuel : Nat} {id : NodeId}
    (hid : (nodes.lookup id).isSome)
    (hfuel : nodes.count (fun k => decide (rank id ≤ rank k)) ≤ fuel) :
    ∃ tree, build nodes fuel id = some tree ∧ tree.id = id ∧ Built nodes tree := by
  induction fuel generalizing id with
  | zero =>
    have hlt := Nodes.count_lt (p := fun _ => false) (q := fun k => decide (rank id ≤ rank k))
      (fun _ h => nomatch h) hid (decide_eq_true (Nat.le_refl _)) rfl
    omega
  | succ fuel ih =>
    obtain ⟨e, he⟩ := Option.isSome_iff_exists.mp hid
    have hlabel : e.tree.id = id := hlabels (id, e) ((Objects.lookup_eq_some_iff hkeys).mp he)
    have hchildren : ∀ c ∈ nodes.children (some id),
        ∃ tree, build nodes fuel c = some tree ∧ tree.id = c ∧ Built nodes tree := by
      intro c hc
      have hlink := hkeys.mem_children.mp hc
      have hlt := (hup c id hlink).1
      apply ih
      · obtain ⟨e', he', -⟩ := Option.map_eq_some_iff.mp hlink
        rw [he']
        rfl
      · have hcount := Nodes.count_lt (p := fun k => decide (rank c ≤ rank k))
          (q := fun k => decide (rank id ≤ rank k))
          (fun k hk => decide_eq_true (Nat.le_trans (Nat.le_of_lt hlt) (of_decide_eq_true hk)))
          hid (decide_eq_true (Nat.le_refl _)) (decide_eq_false (Nat.not_le.mpr hlt))
        omega
    obtain ⟨trees, hmap, hids, htrees⟩ := built_list hchildren
    refine ⟨_, ?_, ?_, .node id e trees he hlabel hids htrees⟩
    · rw [build, he, Option.bind_some, hmap, Option.map_some]
    · exact hlabel

/-! ### Rows -/

mutual

/-- The nodes of a tree, each with the parent it hangs under. -/
def RecursionTree.rows (parent : Option NodeId) :
    RecursionTree → List (Option NodeId × RecursionTree)
  | ⟨id, kind, name, model, originCell, status, turns, usageSelf, usageSubtree, children⟩ =>
    (parent, ⟨id, kind, name, model, originCell, status, turns, usageSelf, usageSubtree,
      children⟩) :: forestRows (some id) children

def forestRows (parent : Option NodeId) :
    List RecursionTree → List (Option NodeId × RecursionTree)
  | [] => []
  | tree :: trees => tree.rows parent ++ forestRows parent trees

end

theorem RecursionTree.rows_eq (parent : Option NodeId) (tree : RecursionTree) :
    tree.rows parent = (parent, tree) :: forestRows (some tree.id) tree.children := by
  cases tree with
  | mk => rw [rows]

theorem forestRows_eq (parent : Option NodeId) (trees : List RecursionTree) :
    forestRows parent trees = trees.flatMap (RecursionTree.rows parent) := by
  induction trees with
  | nil => rw [forestRows, List.flatMap_nil]
  | cons tree trees ih => rw [forestRows, ih, List.flatMap_cons]

/-- The rows of a tree of the map are the nodes of a subtree, each once and under
    its parent. -/
structure Covers (nodes : Nodes) (id : NodeId)
    (rows : List (Option NodeId × RecursionTree)) : Prop where
  built : ∀ r ∈ rows, Built nodes r.2
  linked : ∀ r ∈ rows, nodes.up r.2.id = some r.1
  below : ∀ i, i ∈ rows.map (fun r => r.2.id) ↔ Forest.Below nodes.up id i
  nodup : (rows.map fun r => r.2.id).Nodup

/-- Trees of nodes with the same parent have nothing in common. -/
theorem covers_nodup {nodes : Nodes} {rank : NodeId → Nat} (hup : Forest.Ranked nodes.up rank)
    {parent : Option NodeId} {trees : List RecursionTree}
    (hnodup : (trees.map RecursionTree.id).Nodup)
    (hlinks : ∀ tree ∈ trees, nodes.up tree.id = some parent)
    (hcovers : ∀ tree ∈ trees, Covers nodes tree.id (tree.rows parent)) :
    ((forestRows parent trees).map fun r => r.2.id).Nodup := by
  rw [forestRows_eq, List.map_flatMap, List.nodup_flatMap]
  refine ⟨fun tree htree => (hcovers tree htree).nodup, ?_⟩
  rw [List.nodup_iff_pairwise_ne, List.pairwise_map] at hnodup
  refine hnodup.imp_of_mem ?_
  intro tree tree' htree htree' hne i hi hi'
  have hbelow := ((hcovers tree htree).below i).mp hi
  have hbelow' := ((hcovers tree' htree').below i).mp hi'
  exact hne (Forest.sibling_unique hup (hlinks tree htree) (hlinks tree' htree') hbelow hbelow')

theorem Built.covers {nodes : Nodes} {rank : NodeId → Nat} (hkeys : nodes.Keyed)
    (hup : Forest.Ranked nodes.up rank) {tree : RecursionTree} (h : Built nodes tree) {parent : Option NodeId}
    (hparent : nodes.up tree.id = some parent) : Covers nodes tree.id (tree.rows parent) := by
  induction h generalizing parent with
  | node id e trees he hid hids htrees ih =>
    have hchild : ∀ tree ∈ trees, nodes.up tree.id = some (some id) := by
      intro tree htree
      apply hkeys.mem_children.mp
      rw [← hids]
      exact List.mem_map_of_mem htree
    have hcovers : ∀ tree ∈ trees, Covers nodes tree.id (tree.rows (some id)) :=
      fun tree htree => ih tree htree (hchild tree htree)
    subst hid
    rw [RecursionTree.rows_eq]
    have hmem : ∀ r, r ∈ forestRows (some e.tree.id) trees ↔
        ∃ tree ∈ trees, r ∈ tree.rows (some e.tree.id) := by
      intro r
      rw [forestRows_eq, List.mem_flatMap]
    constructor
    · intro r hr
      rcases List.mem_cons.mp hr with rfl | hr
      · exact .node _ e trees he rfl hids htrees
      · obtain ⟨tree, htree, hr⟩ := (hmem r).mp hr
        exact (hcovers tree htree).built r hr
    · intro r hr
      rcases List.mem_cons.mp hr with rfl | hr
      · exact hparent
      · obtain ⟨tree, htree, hr⟩ := (hmem r).mp hr
        exact (hcovers tree htree).linked r hr
    · intro i
      rw [List.map_cons, List.mem_cons]
      constructor
      · rintro (rfl | hi)
        · exact Forest.Below.refl _
        · obtain ⟨r, hr, rfl⟩ := List.mem_map.mp hi
          obtain ⟨tree, htree, hr⟩ := (hmem r).mp hr
          have hbelow := ((hcovers tree htree).below r.2.id).mp (List.mem_map_of_mem hr)
          exact Forest.Below.trans (.single (hchild tree htree)) hbelow
      · intro hbelow
        by_cases hi : i = e.tree.id
        · exact Or.inl hi
        · -- What is strictly below a node is below one of its children.
          right
          obtain ⟨c, hc, hci⟩ := hbelow.exists_child hi
          have hmemc : c ∈ trees.map RecursionTree.id := by
            rw [hids]
            exact hkeys.mem_children.mpr hc
          obtain ⟨tree, htree, rfl⟩ := List.mem_map.mp hmemc
          obtain ⟨r, hr, rfl⟩ := List.mem_map.mp (((hcovers tree htree).below i).mpr hci)
          exact List.mem_map_of_mem ((hmem r).mpr ⟨tree, htree, hr⟩)
    · rw [List.map_cons, List.nodup_cons]
      refine ⟨?_, covers_nodup hup ?_ hchild hcovers⟩
      · intro hi
        obtain ⟨r, hr, heq⟩ := List.mem_map.mp hi
        obtain ⟨tree, htree, hr⟩ := (hmem r).mp hr
        have hbelow := ((hcovers tree htree).below r.2.id).mp (List.mem_map_of_mem hr)
        have hle := hbelow.rank_le hup
        have hlt := (hup _ _ (hchild tree htree)).1
        have hsame : r.2.id = e.tree.id := heq
        exact absurd (congrArg rank hsame) (Nat.ne_of_gt (Nat.lt_of_lt_of_le hlt hle))
      · rw [hids]
        exact hkeys.nodup_children _

/-- In a map without cycles the rows of the trees of all roots are all nodes. -/
theorem forest_rows {nodes : Nodes} {rank : NodeId → Nat} (hkeys : nodes.Keyed)
    (hup : Forest.Ranked nodes.up rank) {forest : List RecursionTree}
    (hids : forest.map RecursionTree.id = nodes.children none)
    (hbuilt : ∀ tree ∈ forest, Built nodes tree) :
    (∀ r ∈ forestRows none forest, Built nodes r.2 ∧ nodes.up r.2.id = some r.1) ∧
      (∀ i, i ∈ (forestRows none forest).map (fun r => r.2.id) ↔ (nodes.up i).isSome) ∧
      ((forestRows none forest).map fun r => r.2.id).Nodup := by
  have hroot : ∀ tree ∈ forest, nodes.up tree.id = some none := by
    intro tree htree
    apply hkeys.mem_children.mp
    rw [← hids]
    exact List.mem_map_of_mem htree
  have hcovers : ∀ tree ∈ forest, Covers nodes tree.id (tree.rows none) :=
    fun tree htree => (hbuilt tree htree).covers hkeys hup (hroot tree htree)
  have hmem : ∀ r, r ∈ forestRows none forest ↔ ∃ tree ∈ forest, r ∈ tree.rows none := by
    intro r
    rw [forestRows_eq, List.mem_flatMap]
  refine ⟨?_, ?_, ?_⟩
  · intro r hr
    obtain ⟨tree, htree, hr⟩ := (hmem r).mp hr
    exact ⟨(hcovers tree htree).built r hr, (hcovers tree htree).linked r hr⟩
  · intro i
    constructor
    · intro hi
      obtain ⟨r, hr, rfl⟩ := List.mem_map.mp hi
      obtain ⟨tree, htree, hr⟩ := (hmem r).mp hr
      rw [(hcovers tree htree).linked r hr]
      rfl
    · intro hi
      -- The walk from a node ends at the root whose tree holds it.
      obtain ⟨ids, hclimb⟩ := Option.isSome_iff_exists.mp
        (Forest.climb_isSome hup hi (Nat.lt_succ_self (rank i)))
      obtain ⟨root, hlast, hlink⟩ := Forest.climb_getLast hclimb
      have hbelow := (Forest.mem_climb hclimb root).mp (List.mem_of_getLast? hlast)
      have hchild : root ∈ forest.map RecursionTree.id := by
        rw [hids]
        exact hkeys.mem_children.mpr hlink
      obtain ⟨tree, htree, rfl⟩ := List.mem_map.mp hchild
      obtain ⟨r, hr, rfl⟩ := List.mem_map.mp (((hcovers tree htree).below i).mpr hbelow)
      exact List.mem_map_of_mem ((hmem r).mpr ⟨tree, htree, hr⟩)
  · refine covers_nodup hup ?_ hroot hcovers
    rw [hids]
    exact hkeys.nodup_children none

/-! ### Subtree sums -/

theorem foldl_subtree (trees : List RecursionTree) (start : Usage) :
    trees.foldl (fun sum child => sum + child.usageSubtree) start =
      start + (trees.map RecursionTree.usageSubtree).sum := by
  induction trees generalizing start with
  | nil => exact (add_zero start).symm
  | cons tree trees ih => rw [List.foldl_cons, ih, List.map_cons, List.sum_cons, add_assoc]

/-- A tree has the accounts of the entry of its node. -/
theorem Built.entry {nodes : Nodes} {tree : RecursionTree} (h : Built nodes tree) :
    ∃ e, nodes.lookup tree.id = some e ∧ tree.usageSelf = e.tree.usageSelf ∧
      tree.turns = e.tree.turns := by
  cases h with
  | node id e trees he hid hids htrees =>
    subst hid
    exact ⟨e, he, rfl, rfl⟩

theorem Built.subtree {nodes : Nodes} {tree : RecursionTree} (h : Built nodes tree) :
    tree.usageSubtree =
      tree.usageSelf + (tree.children.map RecursionTree.usageSubtree).sum := by
  cases h with
  | node id e trees he hid hids htrees => exact foldl_subtree trees _

/-- Accounts that add up over the same children are those of the trees. -/
theorem Built.subtree_unique {nodes : Nodes} {own sub : NodeId → Usage}
    (hsub : ∀ id, (nodes.lookup id).isSome →
      sub id = own id + ((nodes.children (some id)).map sub).sum)
    {tree : RecursionTree} (h : Built nodes tree)
    (hown : ∀ id e, nodes.lookup id = some e → e.tree.usageSelf = own id) :
    tree.usageSubtree = sub tree.id := by
  induction h with
  | node id e trees he hid hids htrees ih =>
    have hchildren : trees.map RecursionTree.usageSubtree =
        (nodes.children (some id)).map sub := by
      rw [← hids, List.map_map]
      exact List.map_congr_left ih
    subst hid
    show trees.foldl _ _ = sub e.tree.id
    rw [foldl_subtree, hchildren, hown _ e he, hsub _ (by rw [he]; rfl)]

end Kyora.Trace
