import Kyora.Framework.Streams
import Kyora.Tui.App

/-! # Interleaved streams

  All nodes share one table and one transcript list. What a node sees of them is
  its row of the table and its own entries, and an event changes what its own
  node sees, as a function of that. So the transcripts do not depend on how the
  events of different nodes are interleaved.
-/

namespace Kyora.Tui

/-! ### The last entry that fits -/

section ModifyLast

variable {α : Type} {p q : α → Bool} {f : α → α}

theorem modifyLast_of_not_any {l : List α} (h : l.any p = false) : modifyLast p f l = l := by
  cases l with
  | nil => rfl
  | cons a as =>
    rw [List.any_cons, Bool.or_eq_false_iff] at h
    rw [modifyLast, h.2, h.1, if_neg Bool.false_ne_true, if_neg Bool.false_ne_true]

theorem any_filter (hq : ∀ a, p a = true → q a = true) (l : List α) :
    (l.filter q).any p = l.any p := by
  rw [List.any_filter]
  congr 1
  funext a
  cases hp : p a with
  | false => exact Bool.and_false _
  | true => rw [hq a hp, Bool.and_true]

/-- The elements that pass a wider test change as if alone. -/
theorem filter_modifyLast (hq : ∀ a, p a = true → q a = true)
    (hf : ∀ a, p a = true → q (f a) = true) (l : List α) :
    (modifyLast p f l).filter q = modifyLast p f (l.filter q) := by
  induction l with
  | nil => rfl
  | cons a as ih =>
    rw [modifyLast]
    by_cases hany : as.any p = true
    · rw [if_pos hany, List.filter_cons, List.filter_cons, ih]
      by_cases ha : q a = true
      · rw [if_pos ha, if_pos ha, modifyLast, any_filter hq, if_pos hany]
      · rw [if_neg ha, if_neg ha]
    · rw [if_neg hany]
      by_cases hp : p a = true
      · rw [if_pos hp, List.filter_cons_of_pos (hf a hp), List.filter_cons_of_pos (hq a hp),
          modifyLast, any_filter hq, if_neg hany, if_pos hp]
      · rw [if_neg hp]
        refine (modifyLast_of_not_any ?_).symm
        rw [any_filter hq, List.any_cons, Bool.eq_false_iff.mpr hp, Bool.eq_false_iff.mpr hany]
        rfl

theorem modifyLast_concat {a : α} (ha : p a = true) (l : List α) :
    modifyLast p f (l ++ [a]) = l ++ [f a] := by
  induction l with
  | nil => rw [List.nil_append, modifyLast, List.any_nil, if_neg Bool.false_ne_true, if_pos ha,
      List.nil_append]
  | cons b l ih =>
    have hany : (l ++ [a]).any p = true :=
      List.any_eq_true.mpr ⟨a, List.mem_append_right l (List.mem_singleton_self a), ha⟩
    rw [List.cons_append, modifyLast, if_pos hany, ih, List.cons_append]

/-- A search from the end finds the last element that passes. -/
theorem find?_reverse (l : List α) : l.reverse.find? p = (l.filter p).getLast? := by
  rw [← List.head?_filter, List.filter_reverse, List.head?_reverse]

/-- The elements that cannot pass stay. -/
theorem filter_modifyLast_other (hq : ∀ a, p a = true → q a = false)
    (hf : ∀ a, p a = true → q (f a) = false) (l : List α) :
    (modifyLast p f l).filter q = l.filter q := by
  induction l with
  | nil => rfl
  | cons a as ih =>
    rw [modifyLast]
    by_cases hany : as.any p = true
    · rw [if_pos hany, List.filter_cons, List.filter_cons, ih]
    · rw [if_neg hany]
      by_cases hp : p a = true
      · rw [if_pos hp, List.filter_cons, List.filter_cons, hf a hp, hq a hp]
        rfl
      · rw [if_neg hp]

theorem getElem?_modifyLast {l : List α} {i : Nat} {a : α} (ha : l[i]? = some a)
    (hp : p a = false) : (modifyLast p f l)[i]? = some a := by
  induction l generalizing i with
  | nil => exact ha
  | cons b bs ih =>
    rw [modifyLast]
    by_cases hany : bs.any p = true
    · rw [if_pos hany]
      cases i with
      | zero => exact ha
      | succ i => exact ih ha
    · rw [if_neg hany]
      by_cases hb : p b = true
      · rw [if_pos hb]
        cases i with
        | zero =>
          obtain rfl := Option.some.inj ha
          exact absurd (hp.symm.trans hb) Bool.false_ne_true
        | succ i => exact ha
      · rw [if_neg hb]
        exact ha

end ModifyLast

/-! ### Views -/

/-- The stream of an event: its node, or none for the shared budget. -/
def UiEvent.stream : UiEvent → Option NodeId
  | .textDelta node _ | .toolCallStarted node .. | .toolCallFinished node ..
  | .agentFinished node _ | .replCellFinished node .. | .llmCallFinished node _
  | .usage node .. => some node
  | .agentSpawned spec | .replCellStarted spec _ | .llmCall spec => some spec.id
  | .budget node _ => node

/-- What a stream sees: the row and the entries of its node, or the shared
    budget. -/
@[ext] structure View where
  node : Option Node
  entries : List Entry
  remaining : Option Nat

def view : Option NodeId → App → View
  | some id, s => ⟨s.nodes.get? id, s.entries.filter (·.node = id), none⟩
  | none, s => ⟨none, [], some s.remaining⟩

/-! ### A stream alone -/

namespace View

def start (v : View) (spec : NodeSpec) (kind : NodeKind) : View :=
  match v.node with
  | some node =>
    { v with node := some { node with
        status := .running
        spec := { node.spec with name := spec.name, model := spec.model } } }
  | none => { v with node := some ⟨spec, kind, .running, 0, 0, none⟩ }

def modify (v : View) (f : Node → Node) : View := { v with node := v.node.map f }

def push (v : View) (entry : Entry) : View := { v with entries := v.entries ++ [entry] }

/-- What an event makes of a transcript that holds the entries of its node
    only. -/
def apply (v : View) : UiEvent → View
  | .agentSpawned spec => v.start spec .agent
  | .replCellStarted node code => (v.start node .cell).push (.user node.id code)
  | .llmCall node => v.start node .llm
  | .agentFinished _ status | .llmCallFinished _ status =>
    v.modify fun node => { node with status }
  | .replCellFinished node output status =>
    (v.modify fun node => { node with status }).push (.assistant node output)
  | .textDelta node text =>
    match v.entries.getLast? with
    | some (.assistant owner existing) =>
      { v with entries := v.entries.dropLast ++ [.assistant owner (existing ++ text)] }
    | _ => v.push (.assistant node text)
  | .toolCallStarted node id name args => v.push (.tool node id name args none .running false)
  | .toolCallFinished node id result status =>
    { v with entries := modifyLast (Entry.isCall node id) (Entry.finish result status) v.entries }
  | .usage _ tokens costMicrousd => v.modify fun node => { node with tokens, costMicrousd }
  | .budget (some _) remaining => v.modify fun node => { node with remaining := some remaining }
  | .budget none remaining => { v with remaining := some remaining }

end View

/-! ### One event -/

namespace App

variable {s : App} {id : NodeId} {k : Option NodeId}

theorem view_modifyNode_other (f : Node → Node) (hf : ∀ node, (f node).spec.id = node.spec.id)
    (h : some id ≠ k) : view k (s.modifyNode id f hf) = view k s := by
  cases k with
  | none => rfl
  | some other =>
    have hne : other ≠ id := fun heq => h (congrArg some heq.symm)
    simp only [view, modifyNode, SortedMap.get?_modify, if_neg hne]

theorem view_modifyNode (f : Node → Node) (hf : ∀ node, (f node).spec.id = node.spec.id) :
    view (some id) (s.modifyNode id f hf) = (view (some id) s).modify f := by
  simp only [view, modifyNode, SortedMap.get?_modify, if_true, View.modify]

theorem view_finishNode_other {status : Status} (h : some id ≠ k) :
    view k (s.finishNode id status) = view k s :=
  view_modifyNode_other _ _ h

theorem view_finishNode (status : Status) :
    view (some id) (s.finishNode id status) =
      (view (some id) s).modify fun node => { node with status } :=
  view_modifyNode (fun node => { node with status }) fun _ => rfl

theorem view_insertNode_other {node : Node} (h : some node.spec.id ≠ k) :
    view k (s.insertNode node) = view k s := by
  cases k with
  | none => rfl
  | some other =>
    have hne : other ≠ node.spec.id := fun heq => h (congrArg some heq.symm)
    simp only [view, insertNode, SortedMap.get?_insert, if_neg hne]

theorem view_startNode_other {spec : NodeSpec} {kind : NodeKind} (h : some spec.id ≠ k) :
    view k (s.startNode spec kind) = view k s := by
  rw [startNode]
  cases s.nodes.get? spec.id with
  | some node => exact view_modifyNode_other _ _ h
  | none => exact view_insertNode_other h

theorem view_startNode (spec : NodeSpec) (kind : NodeKind) :
    view (some spec.id) (s.startNode spec kind) = (view (some spec.id) s).start spec kind := by
  rw [startNode, View.start]
  cases hnode : s.nodes.get? spec.id with
  | some node =>
    simp only [view, hnode]
    rw [modifyNode]
    simp only [SortedMap.get?_modify, if_true, hnode, Option.map_some]
  | none =>
    simp only [view, hnode, insertNode, SortedMap.get?_insert, if_true]

theorem entries_startNode (s : App) (spec : NodeSpec) (kind : NodeKind) :
    (s.startNode spec kind).entries = s.entries := by
  rw [startNode]
  cases s.nodes.get? spec.id <;> rfl

theorem view_push_other {entry : Entry} (h : some entry.node ≠ k) :
    view k (s.push entry) = view k s := by
  cases k with
  | none => rfl
  | some other =>
    have hnone : [entry].filter (·.node = other) = [] :=
      List.filter_cons_of_neg fun heq => h (congrArg some (of_decide_eq_true heq))
    rw [view, push, List.filter_append, hnone, List.append_nil]
    rfl

theorem view_push (entry : Entry) :
    view (some entry.node) (s.push entry) = (view (some entry.node) s).push entry := by
  simp only [view, push, View.push, List.filter_append, List.filter_cons, decide_true, if_true,
    List.filter_nil]

/-- What the events of a tool call do to the entries of its node. -/
theorem view_modifyLast {p : Entry → Bool} {f : Entry → Entry}
    (hp : ∀ entry, p entry = true → entry.node = id)
    (hf : ∀ entry, (f entry).node = entry.node) :
    view (some id) { s with entries := modifyLast p f s.entries } =
      { view (some id) s with entries := modifyLast p f (view (some id) s).entries } := by
  have hfilter := filter_modifyLast (fun entry h => decide_eq_true (hp entry h))
    (fun entry h => decide_eq_true ((hf entry).trans (hp entry h))) s.entries
  simp only [view]
  rw [hfilter]

theorem view_modifyLast_other {p : Entry → Bool} {f : Entry → Entry} (h : some id ≠ k)
    (hp : ∀ entry, p entry = true → entry.node = id)
    (hf : ∀ entry, (f entry).node = entry.node) :
    view k { s with entries := modifyLast p f s.entries } = view k s := by
  cases k with
  | none => rfl
  | some other =>
    have hne (entry : Entry) (hentry : p entry = true) : decide (entry.node = other) = false :=
      decide_eq_false fun heq => h (congrArg some ((hp entry hentry).symm.trans heq))
    have hfilter := filter_modifyLast_other hne (fun entry h => by rw [hf]; exact hne entry h)
      s.entries
    simp only [view]
    rw [hfilter]

/-- An event changes nothing of other streams. -/
theorem view_apply_other (e : UiEvent) (h : e.stream ≠ k) : view k (s.apply e) = view k s := by
  cases e with
  | agentSpawned spec => exact view_startNode_other h
  | llmCall spec => exact view_startNode_other h
  | replCellStarted spec code =>
    have hpush : view k (s.apply (.replCellStarted spec code)) =
        view k (s.startNode spec .cell) := view_push_other h
    exact hpush.trans (view_startNode_other h)
  | agentFinished node status => exact view_finishNode_other h
  | llmCallFinished node status => exact view_finishNode_other h
  | replCellFinished node output status =>
    have hpush : view k (s.apply (.replCellFinished node output status)) =
        view k (s.finishNode node status) := view_push_other h
    exact hpush.trans (view_finishNode_other h)
  | textDelta node text =>
    rw [apply]
    split
    · exact view_modifyLast_other h (fun _ h => of_decide_eq_true h) (Entry.node_pushStr text)
    · exact view_push_other h
  | toolCallStarted node id name args => exact view_push_other h
  | toolCallFinished node id result status =>
    exact view_modifyLast_other h (fun _ h => Entry.node_of_isCall h)
      (Entry.node_finish result status)
  | usage node tokens costMicrousd =>
    exact view_modifyNode_other (fun node => { node with tokens, costMicrousd }) (fun _ => rfl) h
  | budget node remaining =>
    cases node with
    | some id =>
      exact view_modifyNode_other (fun node => { node with remaining := some remaining })
        (fun _ => rfl) h
    | none =>
      cases k with
      | none => exact absurd rfl h
      | some other => rfl

/-- A text delta goes to the last entry of its node, whatever other nodes wrote
    since. -/
theorem view_textDelta (node : NodeId) (text : String) :
    view (some node) (s.apply (.textDelta node text)) =
      (view (some node) s).apply (.textDelta node text) := by
  have hfind : s.entries.reverse.find? (·.node = node) =
      (view (some node) s).entries.getLast? := find?_reverse s.entries
  rw [apply, View.apply, hfind]
  cases hlast : (view (some node) s).entries.getLast? with
  | none => exact view_push (.assistant node text)
  | some entry =>
    have hmem : entry ∈ (view (some node) s).entries := List.mem_of_getLast? hlast
    have hnode : decide (entry.node = node) = true := (List.mem_filter.mp hmem).2
    cases entry with
    | assistant owner existing =>
      have hview : view (some node)
          { s with entries := modifyLast (·.node = node) (Entry.pushStr text) s.entries } = _ :=
        view_modifyLast (fun _ h => of_decide_eq_true h) (Entry.node_pushStr text)
      refine hview.trans ?_
      obtain ⟨before, hbefore⟩ := List.getLast?_eq_some_iff.mp hlast
      have hmodify : modifyLast (·.node = node) (Entry.pushStr text)
          (before ++ [.assistant owner existing]) =
            before ++ [.assistant owner (existing ++ text)] :=
        modifyLast_concat (p := fun entry => decide (entry.node = node)) hnode before
      simp only
      rw [hbefore, hmodify, List.dropLast_concat]
    | user owner existing => exact view_push (.assistant node text)
    | tool owner id name args result status expanded => exact view_push (.assistant node text)

theorem view_apply (e : UiEvent) :
    view e.stream (s.apply e) = (view e.stream s).apply e := by
  cases e with
  | agentSpawned spec => exact view_startNode spec .agent
  | llmCall spec => exact view_startNode spec .llm
  | replCellStarted spec code =>
    have hpush : view (some spec.id) (s.apply (.replCellStarted spec code)) =
        (view (some spec.id) (s.startNode spec .cell)).push (.user spec.id code) :=
      view_push (.user spec.id code)
    rw [view_startNode] at hpush
    exact hpush
  | agentFinished node status => exact view_finishNode status
  | llmCallFinished node status => exact view_finishNode status
  | replCellFinished node output status =>
    have hpush : view (some node) (s.apply (.replCellFinished node output status)) =
        (view (some node) (s.finishNode node status)).push (.assistant node output) :=
      view_push (.assistant node output)
    rw [view_finishNode] at hpush
    exact hpush
  | textDelta node text => exact view_textDelta node text
  | toolCallStarted node id name args =>
    exact view_push (.tool node id name args none .running false)
  | toolCallFinished node id result status =>
    exact view_modifyLast (fun _ h => Entry.node_of_isCall h) (Entry.node_finish result status)
  | usage node tokens costMicrousd =>
    exact view_modifyNode (fun node => { node with tokens, costMicrousd }) fun _ => rfl
  | budget node remaining =>
    cases node with
    | some id =>
      exact view_modifyNode (fun node => { node with remaining := some remaining }) fun _ => rfl
    | none => rfl

/-- An entry changes by events of its own node only, and keeps its place. -/
theorem entry_apply {e : UiEvent} {i : Nat} {entry : Entry} (hentry : s.entries[i]? = some entry)
    (h : e.stream ≠ some entry.node) : (s.apply e).entries[i]? = some entry := by
  have hpush (last : Entry) : (s.entries ++ [last])[i]? = some entry :=
    (List.getElem?_append_left (List.getElem?_eq_some_iff.mp hentry).1).trans hentry
  cases e with
  | agentSpawned spec => exact (entries_startNode s spec .agent).symm ▸ hentry
  | llmCall spec => exact (entries_startNode s spec .llm).symm ▸ hentry
  | replCellStarted spec code =>
    show ((s.startNode spec .cell).entries ++ [_])[i]? = some entry
    rw [entries_startNode]
    exact hpush _
  | agentFinished node status => exact hentry
  | llmCallFinished node status => exact hentry
  | replCellFinished node output status => exact hpush _
  | textDelta node text =>
    rw [apply]
    split
    · exact getElem?_modifyLast hentry (decide_eq_false fun heq => h (congrArg some heq.symm))
    · exact hpush _
  | toolCallStarted node id name args => exact hpush _
  | toolCallFinished node id result status =>
    apply getElem?_modifyLast hentry
    rw [Bool.eq_false_iff]
    exact fun hcall => h (congrArg some (Entry.node_of_isCall hcall).symm)
  | usage node tokens costMicrousd => exact hentry
  | budget node remaining => cases node <;> exact hentry

end App

/-! ### Interleavings -/

theorem independent : Streams.Independent App.apply UiEvent.stream view View.apply where
  frame _ e _ h := App.view_apply_other e h
  own _ e := App.view_apply e

/-- Sequences with the same events of each node in the same order lead to equal
    node tables and to the same entries of each node in the same order. Each node
    sees what its own events alone would show, and no event changes an entry of
    another node. -/
theorem streams_independent (s : App) {es es' : List UiEvent}
    (hes : ∀ k, es.filter (·.stream = k) = es'.filter (·.stream = k)) :
    (es.foldl App.apply s).nodes = (es'.foldl App.apply s).nodes ∧
    (∀ id, (es.foldl App.apply s).entries.filter (·.node = id) =
      (es'.foldl App.apply s).entries.filter (·.node = id)) ∧
    (es.foldl App.apply s).remaining = (es'.foldl App.apply s).remaining ∧
    (∀ k, view k (es.foldl App.apply s) =
      (es.filter (·.stream = k)).foldl View.apply (view k s)) ∧
    (∀ (t : App) (e : UiEvent) (i : Nat) (entry : Entry), t.entries[i]? = some entry →
      e.stream ≠ some entry.node → (t.apply e).entries[i]? = some entry) := by
  have hviews (k : Option NodeId) :
      view k (es.foldl App.apply s) = view k (es'.foldl App.apply s) :=
    independent.interleave hes s k
  refine ⟨?_, ?_, ?_, fun k => independent.foldl_eq k s es, ?_⟩
  · exact SortedMap.ext_get? fun id => congrArg View.node (hviews (some id))
  · exact fun id => congrArg View.entries (hviews (some id))
  · exact Option.some.inj (congrArg View.remaining (hviews none))
  · exact fun t e i entry => App.entry_apply

/-- Two nodes that stream at once, and one after the other. -/
theorem streams_independent_twoNodes :
    (([.textDelta 0 "hello", .textDelta 1 "child", .budget none 7, .textDelta 0 " world"] :
        List UiEvent).foldl App.apply App.new).entries.filter (·.node = 0) =
      (([.textDelta 1 "child", .textDelta 0 "hello", .textDelta 0 " world", .budget none 7] :
        List UiEvent).foldl App.apply App.new).entries.filter (·.node = 0) ∧
    (([.textDelta 1 "child", .textDelta 0 "hello", .textDelta 0 " world", .budget none 7] :
        List UiEvent).foldl App.apply App.new).entries =
      [.assistant 1 "child", .assistant 0 "hello world"] := by
  refine ⟨(streams_independent App.new ?_).2.1 0, by decide⟩
  intro k
  match k with
  | none => rfl
  | some 0 => rfl
  | some 1 => rfl
  | some (n + 2) => simp [UiEvent.stream]

end Kyora.Tui
