import Kyora.Framework.Preordered
import Kyora.Tui.App

/-! # The rows of the recursion tree

  `tree_rows` lists the nodes parent first. It goes through the roots and then
  through all nodes, with a stack and a set of the nodes it listed before, so it
  ends for parent links of any shape.

  A node is rooted if its chain of parents ends at a node without a known parent.
  The first pass lists the rooted nodes as trees in preorder; what the second
  pass adds lies on a cycle or below one.
-/

namespace Kyora.Tui

/-! ### The traversal -/

/-- The rows so far, and the nodes they are of. -/
structure Traversal where
  rows : List (NodeId × Nat)
  visited : List NodeId
  deriving DecidableEq, Repr

/-- The visited nodes are those of the rows, each once. -/
structure Traversal.Sound (s : App) (t : Traversal) : Prop where
  visited : t.visited = t.rows.map Prod.fst
  nodup : t.visited.Nodup
  known : ∀ id ∈ t.visited, id ∈ s.nodes.keys

namespace App

def roots (s : App) : List NodeId :=
  (s.nodes.values.filter fun node =>
    match node.spec.parent with
    | none => true
    | some id => (s.nodes.get? id).isNone).map (·.spec.id)

/-- What a node pushes onto the stack, in the order it is pushed. -/
def pushed (s : App) (id : NodeId) (depth : Nat) : List (NodeId × Nat) :=
  (s.nodes.values.reverse.filter (·.spec.parent = some id)).map fun node =>
    (node.spec.id, depth + 1)

/-- The parents that are named and not visited yet. -/
def unvisited (s : App) (visited : List NodeId) : List NodeId :=
  (s.nodes.values.filterMap (·.spec.parent)).filter (· ∉ visited)

theorem unvisited_concat (s : App) (visited : List NodeId) (id : NodeId) :
    s.unvisited (visited ++ [id]) = (s.unvisited visited).filter (· ≠ id) := by
  rw [unvisited, unvisited, List.filter_filter]
  apply List.filter_congr
  intro other _
  rw [← Bool.decide_and, decide_eq_decide, List.mem_append, List.mem_singleton, not_or, and_comm]

theorem unvisited_length_le (s : App) (visited : List NodeId) (id : NodeId) :
    (s.unvisited (visited ++ [id])).length ≤ (s.unvisited visited).length := by
  rw [unvisited_concat]
  exact List.length_filter_le _ _

/-- A node that pushes another is a parent. -/
theorem unvisited_length_lt {s : App} {visited : List NodeId} {id : NodeId} {depth : Nat}
    (hid : id ∉ visited) (h : s.pushed id depth ≠ []) :
    (s.unvisited (visited ++ [id])).length < (s.unvisited visited).length := by
  obtain ⟨row, hrow⟩ := List.exists_mem_of_ne_nil _ h
  obtain ⟨node, hnode, -⟩ := List.mem_map.mp hrow
  obtain ⟨hmem, hparent⟩ := List.mem_filter.mp hnode
  have hparents : id ∈ s.nodes.values.filterMap (·.spec.parent) :=
    List.mem_filterMap.mpr ⟨node, List.mem_reverse.mp hmem, of_decide_eq_true hparent⟩
  rw [unvisited_concat, List.length_filter_lt_length_iff_exists]
  exact ⟨id, List.mem_filter.mpr ⟨hparents, decide_eq_true hid⟩, by simp⟩

/-- The loop over the stack, whose top comes first. -/
def drain (s : App) (t : Traversal) : List (NodeId × Nat) → Traversal
  | [] => t
  | (id, depth) :: stack =>
    if id ∈ t.visited then s.drain t stack
    else
      s.drain ⟨t.rows ++ [(id, depth)], t.visited ++ [id]⟩ ((s.pushed id depth).reverse ++ stack)
termination_by stack => ((s.unvisited t.visited).length, stack.length)
decreasing_by
  · exact Prod.Lex.right _ (Nat.lt_succ_self _)
  · next hid =>
    by_cases hpushed : s.pushed id depth = []
    · rw [hpushed]
      rcases Nat.lt_or_eq_of_le (s.unvisited_length_le t.visited id) with hlt | heq
      · exact Prod.Lex.left _ _ hlt
      · rw [heq]
        exact Prod.Lex.right _ (Nat.lt_succ_self _)
    · exact Prod.Lex.left _ _ (unvisited_length_lt hid hpushed)

/-- Parent-first rows, also exposing children admitted before their parent. A
    visited set bounds traversal even for malformed cyclic topology. -/
def treeRows (s : App) : List (NodeId × Nat) :=
  ((s.roots ++ s.nodes.keys).foldl (fun t root => s.drain t [(root, 0)]) ⟨[], []⟩).rows

/-! ### Parents and children -/

/-- The nodes below a node, in increasing order. -/
def children (s : App) (id : NodeId) : List NodeId :=
  (s.nodes.values.filter (·.spec.parent = some id)).map (·.spec.id)

/-- The chain of parents ends at a node without a known parent. -/
inductive Rooted (s : App) : NodeId → Nat → Prop where
  | root {id : NodeId} {node : Node} : s.nodes.get? id = some node →
      (∀ parent, node.spec.parent = some parent → s.nodes.get? parent = none) → s.Rooted id 0
  | child {id parent : NodeId} {node : Node} {depth : Nat} : s.nodes.get? id = some node →
      node.spec.parent = some parent → s.Rooted parent depth → s.Rooted id (depth + 1)

variable {s : App}

theorem pushed_reverse (id : NodeId) (depth : Nat) :
    (s.pushed id depth).reverse = (s.children id).map (·, depth + 1) := by
  rw [pushed, children, ← List.map_reverse, List.filter_reverse, List.reverse_reverse,
    List.map_map]
  rfl

/-- Nodes are listed under their own identifiers. -/
theorem values_map_id (s : App) : s.nodes.values.map (·.spec.id) = s.nodes.keys := by
  rw [SortedMap.values, SortedMap.keys, List.map_map]
  apply List.map_congr_left
  intro x hx
  exact s.keyed x.1 x.2 (SortedMap.get?_eq_some_iff.mpr hx)

theorem sorted_ids (s : App) (p : Node → Bool) :
    ((s.nodes.values.filter p).map (·.spec.id)).Pairwise (· < ·) := by
  have hsublist := (List.filter_sublist (p := p) (l := s.nodes.values)).map (·.spec.id)
  rw [values_map_id] at hsublist
  exact s.nodes.keys_sorted.sublist hsublist

theorem mem_ids {p : Node → Bool} {id : NodeId} :
    id ∈ (s.nodes.values.filter p).map (·.spec.id) ↔
      ∃ node, s.nodes.get? id = some node ∧ p node = true := by
  rw [List.mem_map]
  constructor
  · rintro ⟨node, hnode, rfl⟩
    obtain ⟨hmem, hp⟩ := List.mem_filter.mp hnode
    obtain ⟨key, hkey⟩ := SortedMap.mem_values_iff.mp hmem
    rw [s.keyed key node hkey]
    exact ⟨node, hkey, hp⟩
  · rintro ⟨node, hnode, hp⟩
    exact ⟨node, List.mem_filter.mpr ⟨SortedMap.mem_values_iff.mpr ⟨id, hnode⟩, hp⟩,
      s.keyed id node hnode⟩

theorem mem_children {id parent : NodeId} :
    id ∈ s.children parent ↔
      ∃ node, s.nodes.get? id = some node ∧ node.spec.parent = some parent := by
  rw [children, mem_ids]
  simp only [decide_eq_true_eq]

theorem mem_roots {id : NodeId} :
    id ∈ s.roots ↔ s.Rooted id 0 := by
  rw [roots, mem_ids]
  constructor
  · rintro ⟨node, hnode, htest⟩
    refine .root hnode ?_
    intro parent hparent
    rw [hparent] at htest
    exact Option.isNone_iff_eq_none.mp htest
  · intro hrooted
    cases hrooted with
    | @root _ node hnode hparent =>
      refine ⟨node, hnode, ?_⟩
      cases hp : node.spec.parent with
      | none => rfl
      | some parent => exact Option.isNone_iff_eq_none.mpr (hparent parent hp)

/-! ### Rooted nodes -/

theorem Rooted.known {id : NodeId} {depth : Nat} (h : s.Rooted id depth) : id ∈ s.nodes.keys := by
  cases h with
  | root hnode _ => exact SortedMap.mem_keys_iff.mpr ⟨_, hnode⟩
  | child hnode _ _ => exact SortedMap.mem_keys_iff.mpr ⟨_, hnode⟩

theorem Rooted.of_children {id parent : NodeId} {depth : Nat} (h : s.Rooted parent depth)
    (hid : id ∈ s.children parent) : s.Rooted id (depth + 1) := by
  obtain ⟨node, hnode, hparent⟩ := mem_children.mp hid
  exact .child hnode hparent h

theorem Rooted.unique {id : NodeId} {depth depth' : Nat} (h : s.Rooted id depth)
    (h' : s.Rooted id depth') : depth = depth' := by
  induction h generalizing depth' with
  | root hnode hparent =>
    cases h' with
    | root _ _ => rfl
    | child hnode' hparent' hrooted =>
      rw [Option.some.inj (hnode.symm.trans hnode')] at hparent
      obtain ⟨_, hknown⟩ := SortedMap.mem_keys_iff.mp hrooted.known
      rw [hparent _ hparent'] at hknown
      exact absurd hknown (Option.some_ne_none _).symm
  | child hnode hparent hrooted ih =>
    cases h' with
    | root hnode' hparent' =>
      rw [← Option.some.inj (hnode.symm.trans hnode')] at hparent'
      obtain ⟨_, hknown⟩ := SortedMap.mem_keys_iff.mp hrooted.known
      rw [hparent' _ hparent] at hknown
      exact absurd hknown (Option.some_ne_none _).symm
    | child hnode' hparent' hrooted' =>
      rw [← Option.some.inj (hnode.symm.trans hnode'), hparent, Option.some.injEq] at hparent'
      rw [← hparent'] at hrooted'
      rw [ih hrooted']

/-- What is below a rooted node is rooted, at a greater depth if it is another
    node. -/
theorem Rooted.under {id n : NodeId} {depth : Nat} (h : s.Rooted id depth)
    (hn : Preordered.Under s.children id n) :
    ∃ depth', s.Rooted n depth' ∧ depth ≤ depth' ∧ (depth = depth' → n = id) := by
  induction hn with
  | refl => exact ⟨depth, h, Nat.le_refl _, fun _ => rfl⟩
  | tail _ hchild ih =>
    obtain ⟨depth', hrooted, hle, -⟩ := ih
    exact ⟨depth' + 1, hrooted.of_children hchild, Nat.le_succ_of_le hle, by omega⟩

/-- Every rooted node is below a root. -/
theorem Rooted.exists_root {n : NodeId} {depth : Nat} (h : s.Rooted n depth) :
    ∃ root ∈ s.roots, Preordered.Under s.children root n := by
  induction h with
  | @root id node hnode hparent =>
    exact ⟨id, mem_roots.mpr (.root hnode hparent), Relation.ReflTransGen.refl⟩
  | child hnode hparent _ ih =>
    obtain ⟨root, hroot, hunder⟩ := ih
    exact ⟨root, hroot, hunder.tail (mem_children.mpr ⟨_, hnode, hparent⟩)⟩

/-! ### The loop -/

theorem drain_append (t : Traversal) (xs ys : List (NodeId × Nat)) :
    s.drain t (xs ++ ys) = s.drain (s.drain t xs) ys := by
  fun_induction App.drain s t xs with
  | case1 t => rfl
  | case2 t id depth stack hid ih =>
    rw [List.cons_append, drain, if_pos hid]
    exact ih
  | case3 t id depth stack hid ih =>
    rw [List.cons_append, drain, if_neg hid, ← List.append_assoc]
    exact ih

/-- The two passes are one loop over all starts. -/
theorem treeRows_eq (s : App) :
    s.treeRows =
      (s.drain (s.drain ⟨[], []⟩ (s.roots.map (·, 0))) (s.nodes.keys.map (·, 0))).rows := by
  have hfoldl (t : Traversal) (ids : List NodeId) :
      ids.foldl (fun t root => s.drain t [(root, 0)]) t = s.drain t (ids.map (·, 0)) := by
    induction ids generalizing t with
    | nil => rw [List.map_nil, drain, List.foldl_nil]
    | cons id ids ih =>
      rw [List.foldl_cons, ih, ← drain_append]
      rfl
  rw [treeRows, hfoldl, List.map_append, drain_append]

/-- What the loop adds follows the rows before, and holds every node of the
    stack. -/
theorem drain_rows (t : Traversal) (stack : List (NodeId × Nat)) :
    t.rows <+: (s.drain t stack).rows ∧ t.visited ⊆ (s.drain t stack).visited ∧
      ∀ x ∈ stack, x.1 ∈ (s.drain t stack).visited := by
  fun_induction App.drain s t stack with
  | case1 t => exact ⟨List.prefix_rfl, List.Subset.refl _, fun _ hx => absurd hx List.not_mem_nil⟩
  | case2 t id depth stack hid ih =>
    obtain ⟨hrows, hvisited, hstack⟩ := ih
    exact ⟨hrows, hvisited, List.forall_mem_cons.mpr ⟨hvisited hid, hstack⟩⟩
  | case3 t id depth stack hid ih =>
    obtain ⟨hrows, hvisited, hstack⟩ := ih
    obtain ⟨hbefore, hself⟩ := List.append_subset.mp hvisited
    refine ⟨(List.prefix_append _ _).trans hrows, hbefore, List.forall_mem_cons.mpr ⟨?_, ?_⟩⟩
    · exact hself (List.mem_singleton_self id)
    · exact fun x hx => hstack x (List.mem_append_right _ hx)

theorem drain_sound {t : Traversal} (h : t.Sound s) {stack : List (NodeId × Nat)}
    (hstack : ∀ x ∈ stack, x.1 ∈ s.nodes.keys) : (s.drain t stack).Sound s := by
  fun_induction App.drain s t stack with
  | case1 t => exact h
  | case2 t id depth stack hid ih => exact ih h (List.forall_mem_cons.mp hstack).2
  | case3 t id depth stack hid ih =>
    obtain ⟨hknown, hrest⟩ := List.forall_mem_cons.mp hstack
    refine ih ⟨?_, ?_, ?_⟩ ?_
    · rw [h.visited, List.map_append]
      rfl
    · rw [List.nodup_append_comm, List.singleton_append]
      exact h.nodup.cons hid
    · intro other hother
      rcases List.mem_append.mp hother with hother | hother
      · exact h.known other hother
      · rw [List.mem_singleton.mp hother]
        exact hknown
    · intro x hx
      rcases List.mem_append.mp hx with hx | hx
      · rw [pushed_reverse] at hx
        obtain ⟨child, hchild, rfl⟩ := List.mem_map.mp hx
        obtain ⟨node, hnode, -⟩ := mem_children.mp hchild
        exact SortedMap.mem_keys_iff.mpr ⟨node, hnode⟩
      · exact hrest x hx

/-- Trees that are apart from each other and from the nodes visited before. -/
structure Apart (s : App) (visited : List NodeId) (stack : List (NodeId × Nat)) : Prop where
  rooted : ∀ x ∈ stack, s.Rooted x.1 x.2
  apart : stack.Pairwise fun x y =>
    ∀ n, Preordered.Under s.children x.1 n → ¬Preordered.Under s.children y.1 n
  fresh : ∀ x ∈ stack, ∀ n, Preordered.Under s.children x.1 n → n ∉ visited

theorem Rooted.eq_of_under {id id' : NodeId} {depth : Nat} (h : s.Rooted id depth)
    (h' : s.Rooted id' depth) (hunder : Preordered.Under s.children id id') : id' = id := by
  obtain ⟨depth', hrooted, -, heq⟩ := h.under hunder
  exact heq (h'.unique hrooted)

/-- Different nodes at one depth have nothing below in common. -/
theorem Rooted.apart {id id' n : NodeId} {depth : Nat} (h : s.Rooted id depth)
    (h' : s.Rooted id' depth) (hne : id ≠ id') (hn : Preordered.Under s.children id n)
    (hn' : Preordered.Under s.children id' n) : False := by
  -- Parents are unique, so both chains from `n` upwards are one.
  induction hn with
  | refl => exact hne (h'.eq_of_under h hn')
  | @tail m n hm hchild ih =>
    rcases Relation.ReflTransGen.cases_tail hn' with heq | ⟨m', hm', hchild'⟩
    · rw [heq] at hchild
      exact hne (h.eq_of_under h' (hm.tail hchild)).symm
    · obtain ⟨node, hnode, hparent⟩ := mem_children.mp hchild
      obtain ⟨node', hnode', hparent'⟩ := mem_children.mp hchild'
      rw [Option.some.inj (hnode'.symm.trans hnode), hparent, Option.some.injEq] at hparent'
      rw [← hparent'] at hm'
      exact ih hm'

theorem Apart.next {visited : List NodeId} {id : NodeId} {depth : Nat}
    {stack : List (NodeId × Nat)} (h : s.Apart visited ((id, depth) :: stack)) :
    s.Apart (visited ++ [id]) ((s.pushed id depth).reverse ++ stack) := by
  obtain ⟨hrooted, hrest⟩ := List.forall_mem_cons.mp h.rooted
  obtain ⟨hapart, hstack⟩ := List.pairwise_cons.mp h.apart
  have hchildren : ∀ x ∈ (s.pushed id depth).reverse, s.Rooted x.1 (depth + 1) ∧ x.2 = depth + 1 ∧
      ∀ n, Preordered.Under s.children x.1 n → Preordered.Under s.children id n := by
    intro x hx
    rw [pushed_reverse] at hx
    obtain ⟨child, hchild, rfl⟩ := List.mem_map.mp hx
    exact ⟨hrooted.of_children hchild, rfl, fun n hn => Relation.ReflTransGen.head hchild hn⟩
  constructor
  · intro x hx
    rcases List.mem_append.mp hx with hx | hx
    · obtain ⟨hx, hdepth, -⟩ := hchildren x hx
      rw [hdepth]
      exact hx
    · exact hrest x hx
  · rw [List.pairwise_append]
    refine ⟨?_, hstack, ?_⟩
    · rw [pushed_reverse, List.pairwise_map]
      refine (sorted_ids s _).imp_of_mem ?_
      intro c c' hc hc' hlt n hn hn'
      exact (hrooted.of_children hc).apart (hrooted.of_children hc') (ne_of_lt hlt) hn hn'
    · intro x hx y hy n hn
      exact hapart y hy n ((hchildren x hx).2.2 n hn)
  · intro x hx n hn hmem
    rcases List.mem_append.mp hx with hx | hx
    · obtain ⟨hchild, -, hunder⟩ := hchildren x hx
      rcases List.mem_append.mp hmem with hmem | hmem
      · exact h.fresh _ List.mem_cons_self n (hunder n hn) hmem
      · -- A node is not below its own child.
        rw [List.mem_singleton.mp hmem] at hn
        obtain ⟨depth', hdepth', hle, -⟩ := hchild.under hn
        have heq := hrooted.unique hdepth'
        omega
    · rcases List.mem_append.mp hmem with hmem | hmem
      · exact h.fresh x (List.mem_cons_of_mem _ hx) n hn hmem
      · rw [List.mem_singleton.mp hmem] at hn
        exact hapart x hx id Relation.ReflTransGen.refl hn

/-- Trees that are apart are listed in preorder. -/
theorem drain_preordered {t : Traversal} {stack : List (NodeId × Nat)}
    (h : s.Apart t.visited stack) :
    ∃ out, (s.drain t stack).rows = t.rows ++ out ∧ Preordered s.children stack out := by
  fun_induction App.drain s t stack with
  | case1 t => exact ⟨[], (List.append_nil _).symm, .nil⟩
  | case2 t id depth stack hid ih =>
    exact absurd hid (h.fresh _ List.mem_cons_self id Relation.ReflTransGen.refl)
  | case3 t id depth stack hid ih =>
    obtain ⟨out, hrows, hout⟩ := ih h.next
    rw [pushed_reverse] at hout
    obtain ⟨below, after, rfl, hbelow, hafter⟩ := hout.split
    refine ⟨(id, depth) :: (below ++ after), ?_, .cons hbelow hafter⟩
    rw [hrows, List.append_assoc]
    rfl

/-- Rows of rooted trees show the lengths of the chains. -/
theorem rooted_of_preordered {stack out : List (NodeId × Nat)}
    (h : Preordered s.children stack out) (hstack : ∀ x ∈ stack, s.Rooted x.1 x.2) :
    ∀ x ∈ out, s.Rooted x.1 x.2 := by
  induction h with
  | nil => exact hstack
  | @cons id depth rest below after _ _ ihbelow ihafter =>
    obtain ⟨hroot, hrest⟩ := List.forall_mem_cons.mp hstack
    have hbelow : ∀ x ∈ (s.children id).map (·, depth + 1), s.Rooted x.1 x.2 := by
      intro x hx
      obtain ⟨child, hchild, rfl⟩ := List.mem_map.mp hx
      exact hroot.of_children hchild
    intro x hx
    rcases List.mem_cons.mp hx with rfl | hx
    · exact hroot
    rcases List.mem_append.mp hx with hx | hx
    · exact ihbelow hbelow x hx
    · exact ihafter hrest x hx

/-! ### Cycles -/

/-- On a cycle of parents, or below one. -/
def BelowCycle (s : App) (n : NodeId) : Prop :=
  ∃ c, Relation.TransGen (fun a b => b ∈ s.children a) c c ∧ Preordered.Under s.children c n

theorem Rooted.not_belowCycle {n : NodeId} {depth : Nat} (h : s.Rooted n depth) :
    ¬s.BelowCycle n := by
  rintro ⟨c, hcycle, hn⟩
  have hknown {m : NodeId} (hm : Preordered.Under s.children c m) :
      ∃ node, s.nodes.get? m = some node := by
    have hlast := hcycle.trans_left hm
    obtain ⟨_, -, hchild⟩ := Relation.TransGen.tail'_iff.mp hlast
    obtain ⟨node, hnode, -⟩ := mem_children.mp hchild
    exact ⟨node, hnode⟩
  -- Whoever is below the cycle has a parent that is.
  have hparent {m : NodeId} (hm : Preordered.Under s.children c m) :
      ∃ p, Preordered.Under s.children c p ∧ m ∈ s.children p :=
    Relation.TransGen.tail'_iff.mp (hcycle.trans_left hm)
  induction h with
  | root hnode hroot =>
    obtain ⟨p, hp, hchild⟩ := hparent hn
    obtain ⟨node', hnode', hparent'⟩ := mem_children.mp hchild
    rw [Option.some.inj (hnode'.symm.trans hnode)] at hparent'
    obtain ⟨_, hp⟩ := hknown hp
    rw [hroot p hparent'] at hp
    exact absurd hp (Option.some_ne_none _).symm
  | child hnode hlink _ ih =>
    obtain ⟨p, hp, hchild⟩ := hparent hn
    obtain ⟨node', hnode', hparent'⟩ := mem_children.mp hchild
    rw [Option.some.inj (hnode'.symm.trans hnode), hlink, Option.some.injEq] at hparent'
    rw [← hparent'] at hp
    exact ih hp

/-- A known node that is not rooted has a parent that is known and not rooted. -/
theorem exists_parent {id : NodeId} (hid : id ∈ s.nodes.keys) (h : ∀ depth, ¬s.Rooted id depth) :
    ∃ parent ∈ s.nodes.keys, (∀ depth, ¬s.Rooted parent depth) ∧ id ∈ s.children parent := by
  obtain ⟨node, hnode⟩ := SortedMap.mem_keys_iff.mp hid
  by_contra hnone
  apply h 0
  refine .root hnode ?_
  intro parent hparent
  by_contra hknown
  obtain ⟨_, hp⟩ := Option.ne_none_iff_exists'.mp hknown
  refine hnone ⟨parent, SortedMap.mem_keys_iff.mpr ⟨_, hp⟩, ?_, ?_⟩
  · exact fun depth hrooted => h (depth + 1) (.child hnode hparent hrooted)
  · exact mem_children.mpr ⟨node, hnode, hparent⟩

/-- The chain of parents of a node that is not rooted comes back to itself. -/
theorem belowCycle_of_not_rooted {n : NodeId} (hn : n ∈ s.nodes.keys)
    (h : ∀ depth, ¬s.Rooted n depth) : s.BelowCycle n := by
  have hfinite : {id | id ∈ s.nodes.keys ∧ ∀ depth, ¬s.Rooted id depth}.Finite :=
    s.nodes.keys.finite_toSet.subset fun _ hid => hid.1
  apply exists_cycle_above hfinite _ ⟨hn, h⟩
  rintro id ⟨hid, hrooted⟩
  obtain ⟨parent, hparent, hnot, hchild⟩ := exists_parent hid hrooted
  exact ⟨parent, ⟨hparent, hnot⟩, hchild⟩

/-! ### All rows -/

/-- Ascending members of a sorted list are listed in their order. -/
theorem pair_sublist {l : List NodeId} (hl : l.Pairwise (· < ·)) {a b : NodeId} (ha : a ∈ l)
    (hb : b ∈ l) (hlt : a < b) : [a, b].Sublist l := by
  induction hl with
  | nil => exact absurd ha List.not_mem_nil
  | @cons c l hc _ ih =>
    rcases List.mem_cons.mp hb with rfl | hb'
    · rcases List.mem_cons.mp ha with rfl | ha'
      · exact absurd hlt (lt_irrefl _)
      · exact absurd (hc a ha') (lt_asymm hlt)
    · rcases List.mem_cons.mp ha with rfl | ha'
      · exact (List.singleton_sublist.mpr hb').cons_cons _
      · exact (ih ha' hb').cons c

/-- The first pass lists the rooted nodes in preorder. -/
theorem exists_preordered (s : App) :
    ∃ out rest, s.treeRows = out ++ rest ∧ Preordered s.children (s.roots.map (·, 0)) out := by
  have hroots : s.Apart [] (s.roots.map (·, 0)) := by
    constructor
    · intro x hx
      obtain ⟨root, hroot, rfl⟩ := List.mem_map.mp hx
      exact mem_roots.mp hroot
    · rw [List.pairwise_map]
      refine (sorted_ids s _).imp_of_mem ?_
      intro a b ha hb hlt n hn hn'
      exact (mem_roots.mp ha).apart (mem_roots.mp hb) (ne_of_lt hlt) hn hn'
    · exact fun _ _ _ _ => List.not_mem_nil
  obtain ⟨out, hrows, hout⟩ := drain_preordered (t := ⟨[], []⟩) hroots
  obtain ⟨hfront, -, -⟩ := s.drain_rows (s.drain ⟨[], []⟩ (s.roots.map (·, 0)))
    (s.nodes.keys.map (·, 0))
  obtain ⟨rest, hrest⟩ := hfront
  refine ⟨out, rest, ?_, hout⟩
  rw [treeRows_eq, ← hrest, hrows]
  rfl

/-- Every node has one row. -/
theorem treeRows_perm (s : App) : (s.treeRows.map Prod.fst).Perm s.nodes.keys := by
  have hroots : ∀ x ∈ s.roots.map (·, 0), x.1 ∈ s.nodes.keys := by
    intro x hx
    obtain ⟨root, hroot, rfl⟩ := List.mem_map.mp hx
    exact (mem_roots.mp hroot).known
  have hkeys : ∀ x ∈ s.nodes.keys.map (·, 0), x.1 ∈ s.nodes.keys := by
    intro x hx
    obtain ⟨id, hid, rfl⟩ := List.mem_map.mp hx
    exact hid
  have hinit : (⟨[], []⟩ : Traversal).Sound s :=
    ⟨rfl, List.nodup_nil, fun _ h => absurd h List.not_mem_nil⟩
  have hsound := drain_sound (drain_sound hinit hroots) hkeys
  obtain ⟨-, -, hall⟩ := s.drain_rows (s.drain ⟨[], []⟩ (s.roots.map (·, 0)))
    (s.nodes.keys.map (·, 0))
  rw [treeRows_eq, ← hsound.visited]
  apply (List.perm_ext_iff_of_nodup hsound.nodup (s.nodes.keys_sorted.imp ne_of_lt)).mpr
  intro id
  exact ⟨hsound.known id, fun hid => hall _ (List.mem_map_of_mem hid)⟩

end App

/-- `tree_rows` lists every node once. A rooted node is listed at the length of
    its chain of parents, after its parent, in one block with all that is below
    it, and this block comes before the next child of the parent, in increasing
    order. Nodes on a cycle or below one, which are those that are not rooted,
    come after all rooted ones. -/
theorem treeRows_listed (s : App) :
    (s.treeRows.map Prod.fst).Perm s.nodes.keys ∧
    (∀ id depth, s.Rooted id depth → (id, depth) ∈ s.treeRows) ∧
    (∀ id depth, s.Rooted id depth → ∃ before block after,
      s.treeRows = before ++ (id, depth) :: block ++ after ∧
      ∀ n, n ∈ ((id, depth) :: block).map Prod.fst ↔ Preordered.Under s.children id n) ∧
    (∀ parent depth id, s.Rooted parent depth → id ∈ s.children parent →
      [parent, id].Sublist (s.treeRows.map Prod.fst)) ∧
    (∀ parent depth id id' n, s.Rooted parent depth → id ∈ s.children parent →
      id' ∈ s.children parent → id < id' → Preordered.Under s.children id n →
      [n, id'].Sublist (s.treeRows.map Prod.fst)) ∧
    (∀ n depth m, s.Rooted n depth → m ∈ s.nodes.keys → s.BelowCycle m →
      [n, m].Sublist (s.treeRows.map Prod.fst)) ∧
    (∀ m ∈ s.nodes.keys, s.BelowCycle m ↔ ∀ depth, ¬s.Rooted m depth) := by
  obtain ⟨out, rest, hrows, hout⟩ := s.exists_preordered
  have hrooted : ∀ x ∈ out, s.Rooted x.1 x.2 := by
    apply App.rooted_of_preordered hout
    intro x hx
    obtain ⟨root, hroot, rfl⟩ := List.mem_map.mp hx
    exact App.mem_roots.mp hroot
  -- The first pass has the row of every rooted node, with its depth.
  have hfirst {id depth : Nat} (h : s.Rooted id depth) : (id, depth) ∈ out := by
    obtain ⟨root, hroot, hunder⟩ := h.exists_root
    have hmem := (hout.mem_iff id).mpr ⟨_, List.mem_map_of_mem hroot, hunder⟩
    obtain ⟨x, hx, rfl⟩ := List.mem_map.mp hmem
    rw [h.unique (hrooted x hx)]
    exact hx
  -- Its tree is a block of the rows.
  have hblock {id depth : Nat} (h : s.Rooted id depth) : ∃ before block after,
      s.treeRows = before ++ block ++ after ∧ Preordered s.children [(id, depth)] block := by
    obtain ⟨before, block, after, heq, hblock⟩ := hout.exists_block (hfirst h)
    exact ⟨before, block, after ++ rest, by rw [hrows, heq, List.append_assoc], hblock⟩
  have hsublist {before block after : List (NodeId × Nat)}
      (h : s.treeRows = before ++ block ++ after) :
      (block.map Prod.fst).Sublist (s.treeRows.map Prod.fst) := by
    rw [h]
    exact ((List.sublist_append_right before block).trans
      (List.sublist_append_left _ after)).map Prod.fst
  refine ⟨s.treeRows_perm, ?_, ?_, ?_, ?_, ?_, ?_⟩
  · intro id depth h
    rw [hrows]
    exact List.mem_append_left rest (hfirst h)
  · intro id depth h
    obtain ⟨before, block, after, heq, htree⟩ := hblock h
    have hmem := htree.mem_iff
    cases htree with
    | @cons _ _ _ below after' hbelow hafter =>
      refine ⟨before, below ++ after', after, heq, fun n => ?_⟩
      rw [hmem n]
      simp only [List.mem_singleton, exists_eq_left]
  · intro parent depth id h hid
    obtain ⟨before, block, after, heq, htree⟩ := hblock h
    have hne : id ≠ parent := by
      intro heq
      have hdepth := (h.of_children hid).unique (heq ▸ h)
      omega
    exact (htree.root_before (Relation.ReflTransGen.single hid) hne).trans (hsublist heq)
  · intro parent depth id id' n h hid hid' hlt hn
    obtain ⟨before, block, after, heq, htree⟩ := hblock h
    have hpair : [id, id'].Sublist (s.children parent) :=
      App.pair_sublist (App.sorted_ids s _) hid hid' hlt
    exact (htree.child_before hpair hn).trans (hsublist heq)
  · intro n depth m hn hm hcycle
    have hmem : m ∈ s.treeRows.map Prod.fst := s.treeRows_perm.mem_iff.mpr hm
    rw [hrows, List.map_append, List.mem_append] at hmem
    have hrest : m ∈ rest.map Prod.fst := by
      apply hmem.resolve_left
      intro hfirst
      obtain ⟨x, hx, rfl⟩ := List.mem_map.mp hfirst
      exact (hrooted x hx).not_belowCycle hcycle
    have hn := List.mem_map_of_mem (f := Prod.fst) (hfirst hn)
    rw [hrows, List.map_append]
    exact (List.singleton_sublist.mpr hn).append (List.singleton_sublist.mpr hrest)
  · intro m hm
    constructor
    · exact fun hcycle depth hrooted => hrooted.not_belowCycle hcycle
    · exact App.belowCycle_of_not_rooted hm

end Kyora.Tui
