import Kyora.Framework.Checks
import Kyora.Tree.Steps

/-! # What nodes take over

  Every node is wired below the node that admitted it: its token below that
  node's token, its owners after that node's owners, its deadline no later, its
  tools selected from that node's frozen tools. Steps keep this between parent
  and child, and it composes along the tree.
-/

namespace Kyora.Tree

/-! ### Plans -/

/-- A child's deadline is at most its parent's. -/
theorem childDeadline_le {cfg : Config} {now deadline d : Nat} {timeout : Option Nat}
    (h : childDeadline cfg now deadline timeout = .ok d) : d ≤ deadline := by
  cases timeout with
  | none => exact Nat.le_of_eq (Except.ok.inj h).symm
  | some timeout =>
    simp only [childDeadline] at h
    split at h
    · obtain rfl := Except.ok.inj h
      exact Nat.min_le_right _ _
    · cases h

/-- A child selects from its parent's frozen tools, and never `submit_result`. -/
theorem childTools_held {names tools : List String} {requested : Tool.ToolSelection}
    (h : childTools names requested = .ok tools) :
    ∀ name ∈ tools, name ∈ names ∧ name ≠ submitResult := by
  intro name hname
  cases requested with
  | none =>
    obtain rfl := Except.ok.inj h
    obtain ⟨hdefault, hheld⟩ := List.mem_filter.mp hname
    refine ⟨of_decide_eq_true hheld, ?_⟩
    rintro rfl
    -- The default tools do not list it.
    revert hdefault
    decide
  | some requested =>
    simp only [childTools] at h
    split at h
    · cases h
    · next hsubmit =>
      split at h
      · cases h
      · next hall =>
        obtain rfl := Except.ok.inj h
        have hheld := List.find?_eq_none.mp hall name hname
        refine ⟨by simpa using hheld, ?_⟩
        rintro rfl
        exact hsubmit hname

/-- The owner of a planned child is the cell it was spawned for. -/
theorem ownerToken_ok {tokens : Tokens.Tree} {owner : Owner} {token : Option Nat}
    (h : ownerToken tokens owner = .ok token) (spec : ChildSpec) :
    token = (Op.spawnAgent spec owner).owner ∧ ∀ k ∈ token, tokens.isCancelled k = false := by
  cases owner with
  | node =>
    obtain rfl := Except.ok.inj h
    exact ⟨rfl, fun _ hk => absurd hk (by simp)⟩
  | cell k =>
    simp only [ownerToken] at h
    split at h
    · cases h
    · next hrunning =>
      obtain rfl := Except.ok.inj h
      refine ⟨rfl, ?_⟩
      intro k' hk'
      obtain rfl := Option.some.inj hk'
      exact Bool.eq_false_iff.mpr hrunning

/-- What a plan promises. -/
structure Planned (s : State) (n : Node) (spec : ChildSpec) (owner : Owner)
    (plan : ChildPlan) : Prop where
  deadline : plan.deadline ≤ n.cx.deadline
  tools : ∃ names, n.tools = some names ∧ ∀ name ∈ plan.tools, name ∈ names ∧ name ≠ submitResult
  owner : plan.owner = (Op.spawnAgent spec owner).owner

theorem planChild_ok {cfg : Config} {s : State} {n : Node} {spec : ChildSpec} {owner : Owner}
    {plan : ChildPlan} (h : planChild cfg s n spec owner = .ok plan) :
    Planned s n spec owner plan := by
  unfold planChild at h
  obtain ⟨_, -, h⟩ := Checks.bind_eq_ok h
  obtain ⟨deadline, hdeadline, h⟩ := Checks.bind_eq_ok h
  obtain ⟨_, -, h⟩ := Checks.bind_eq_ok h
  obtain ⟨names, hnames, h⟩ := Checks.bind_eq_ok h
  obtain ⟨tools, hchild, h⟩ := Checks.bind_eq_ok h
  obtain ⟨_, -, h⟩ := Checks.bind_eq_ok h
  obtain ⟨token, howner, h⟩ := Checks.bind_eq_ok h
  obtain rfl := Except.ok.inj h
  have htools : n.tools = some names := by
    unfold frozenTools at hnames
    split at hnames
    · next held hheld =>
      obtain rfl := Except.ok.inj hnames
      exact hheld
    · cases hnames
  exact ⟨childDeadline_le hdeadline, ⟨names, htools, childTools_held hchild⟩,
    (ownerToken_ok howner spec).1⟩

/-- An agent runs with the tools it selected, and with `submit_result` only
    for an output schema. -/
theorem nodeTools_names {made : Except String Tool.Toolset} {spec : AgentSpec}
    {settings : AgentSettings} {tools : Tool.Toolset} (h : nodeTools made spec settings = .ok tools)
    {selected : List String} (hselected : spec.tools = some selected) :
    ∀ name ∈ tools.names, name ∈ selected ∨ (name = submitResult ∧ settings.output.isSome) := by
  intro name hname
  unfold nodeTools at h
  obtain ⟨made, -, h⟩ := Checks.bind_eq_ok h
  obtain ⟨cut, hcut, h⟩ := Checks.bind_eq_ok h
  rw [hselected] at hcut
  cases houtput : settings.output with
  | none =>
    rw [houtput] at h
    obtain rfl := Except.ok.inj h
    exact Or.inl (Tool.Toolset.mem_names_select hcut hname)
  | some schema =>
    rw [houtput] at h
    rcases (Tool.Toolset.mem_names_withOwnValidation h).mp hname with rfl | hname
    · exact Or.inr ⟨rfl, rfl⟩
    · exact Or.inl (Tool.Toolset.mem_names_select hcut hname)

/-! ### One step, node by node -/

/-- A node that was there before: only its tools may have been frozen, and its
    work closed. -/
structure Renewed (n n' : Node) : Prop where
  cx : n'.cx = n.cx
  task : n'.task = n.task
  owner : n'.owner = n.owner
  tools : n'.tools = n.tools ∨ (n.tools = none ∧ ∃ spec settings made tools,
    n.task = .agent spec settings ∧ nodeTools made spec settings = .ok tools ∧
      n'.tools = some tools.names)

theorem Renewed.refl (n : Node) : Renewed n n := ⟨rfl, rfl, rfl, Or.inl rfl⟩

/-- Frozen tools stay. -/
theorem Renewed.tools_some {n n' : Node} (h : Renewed n n') {names : List String}
    (hnames : n.tools = some names) : n'.tools = some names := by
  rcases h.tools with heq | ⟨hnone, -⟩
  · rw [heq, hnames]
  · rw [hnone] at hnames
    cases hnames

theorem Renewed.level {n n' : Node} (h : Renewed n n') : n'.level = n.level := by
  unfold Node.level
  rw [h.cx, h.task]

/-- A node that was just admitted below `m`. -/
structure Admitted (s t : State) (m c : Node) : Prop where
  parent : c.cx.parent = some m.cx.id
  id : c.cx.id = s.session.ledger.scopes.length
  depth : c.cx.depth = m.cx.depth + c.task.isAgent.toNat
  cancel : c.cx.cancel < t.tokens.parents.length ∧
    Forest.Below t.tokens.links m.cx.cancel c.cx.cancel
  owners : c.cx.owners = m.cx.owners ++ c.owner.toList
  /-- The owner came with the call that admitted the node. -/
  owner : ∃ x ∈ s.tickets, c.owner = x.op.owner
  deadline : c.cx.deadline ≤ m.cx.deadline
  tools : c.tools = none
  selection : ∀ spec settings, c.task = .agent spec settings → ∃ held selected,
    m.tools = some held ∧ spec.tools = some selected ∧
      ∀ name ∈ selected, name ∈ held ∧ name ≠ submitResult

/-- The nodes after a step are those from before, and at most one more. -/
inductive Grown (s t : State) : Prop where
  | renewed (hlength : t.nodes.length = s.nodes.length)
      (hnodes : ∀ (i : NodeId) (n : Node), s.nodes[i]? = some n →
        ∃ n', t.nodes[i]? = some n' ∧ Renewed n n')
      (hlevels : t.levels = s.levels)
  | admitted (p : NodeId) (m c : Node) (scope : Ledger.Scope) (hm : s.nodes[p]? = some m)
      (hc : Admitted s t m c) (hnodes : t.nodes = s.nodes ++ [c])
      (hscope : s.session.ledger.scopes[m.cx.id]? = some scope)
      (hlevels : t.levels = s.levels ++
        [(some m.cx.id, scope.depth + c.task.isAgent.toNat, c.task.isAgent)])

theorem renewed_set {xs : List Node} {i : NodeId} {m m' : Node} (hm : xs[i]? = some m)
    (hrenewed : Renewed m m') {j : NodeId} {n : Node} (hn : xs[j]? = some n) :
    ∃ n', (xs.set i m')[j]? = some n' ∧ Renewed n n' := by
  by_cases hij : i = j
  · subst hij
    obtain rfl : m = n := Option.some.inj (hm.symm.trans hn)
    exact ⟨m', List.getElem?_set_self (List.getElem?_eq_some_iff.mp hm).1, hrenewed⟩
  · refine ⟨n, ?_, .refl n⟩
    rw [List.getElem?_set_ne hij]
    exact hn

theorem below_childToken {t u : Tokens.Tree} {k : Nat} (h : childToken t k = some u) :
    t.parents.length < u.parents.length ∧ Forest.Below u.links k t.parents.length := by
  obtain ⟨hk, rfl⟩ := childToken_some h
  refine ⟨?_, Tokens.Tree.below_add _ rfl (.refl k)⟩
  show t.parents.length < (t.parents ++ [some k]).length
  rw [List.length_append, List.length_singleton]
  omega

/-- The levels after an admission. -/
theorem levels_admitChild {limits : Limits} {s t : State} {parent id : NodeId} {agent : Bool}
    {limit : Option Nat} {ledger : Ledger.State}
    (hcall : Ledger.admitChild limits s.session.ledger parent agent limit =
      some (ledger, .ok id)) (hledger : t.session.ledger = ledger) :
    id = s.session.ledger.scopes.length ∧
      ∃ scope, s.session.ledger.scopes[parent]? = some scope ∧
        t.levels = s.levels ++ [(some parent, scope.depth + agent.toNat, agent)] := by
  obtain ⟨p, ids, hp, -, -, -, -, -, hid, hscopes, -⟩ := Ledger.admitChild_ok hcall
  refine ⟨hid, p, hp, ?_⟩
  unfold State.levels
  rw [hledger, hscopes, List.map_append, List.map_singleton]
  rfl

/-- Each step grows the tree by at most one admitted node. -/
theorem grown_of_moved {cfg : Config} {s t : State} (h : NodesMoved cfg s t) : Grown s t := by
  cases h with
  | kept hnodes hlevels =>
    refine .renewed (by rw [hnodes]) ?_ hlevels
    intro i n hn
    exact ⟨n, by rw [hnodes, hn], .refl n⟩
  | froze i n spec settings made tools hn htask hnone hmade hnodes hlevels =>
    refine .renewed (by rw [hnodes, List.length_set]) ?_ hlevels
    intro j m hm
    have hfroze : Renewed n { n with tools := some tools.names } :=
      ⟨rfl, rfl, rfl, Or.inr ⟨hnone, spec, settings, made, tools, htask, hmade, rfl⟩⟩
    rw [hnodes]
    exact renewed_set hn hfroze hm
  | closed i n hn hnodes hlevels =>
    refine .renewed (by rw [hnodes, List.length_set]) ?_ hlevels
    intro j m hm
    have hclosed : Renewed n { n with closed := true } := ⟨rfl, rfl, rfl, Or.inl rfl⟩
    rw [hnodes]
    exact renewed_set hn hclosed hm
  | child x n spec owner plan ledger id hx hop hn hplan htokens hcall hledger hnodes =>
    obtain ⟨hid, scope, hscope, hlevels⟩ := levels_admitChild hcall hledger
    have hplanned := planChild_ok hplan
    obtain ⟨names, hnames, hheld⟩ := hplanned.tools
    refine .admitted x.node n _ scope hn ?_ hnodes hscope hlevels
    refine ⟨rfl, hid, rfl, below_childToken htokens, rfl, ⟨x, hx, ?_⟩, hplanned.deadline, rfl, ?_⟩
    · rw [hop]
      exact hplanned.owner
    · intro spec' settings' htask
      obtain ⟨rfl, rfl⟩ := Task.agent.inj htask
      exact ⟨names, plan.tools, hnames, rfl, hheld⟩
  | leaf x n call model owner scope ledger id hx hop hn hscope htokens hcall hledger hnodes =>
    obtain ⟨hid, place, hplace, hlevels⟩ := levels_admitChild hcall hledger
    -- The leaf's token is a child of the call's scope token.
    have hcancel : s.tokens.parents.length + 1 < t.tokens.parents.length ∧
        Forest.Below t.tokens.links n.cx.cancel (s.tokens.parents.length + 1) := by
      obtain ⟨hk, rfl⟩ := childToken_some hscope
      obtain ⟨hlt, hbelow⟩ := below_childToken htokens
      obtain ⟨hk', htokens⟩ := childToken_some htokens
      have hscopeToken := Tokens.Tree.below_add hk rfl (.refl n.cx.cancel)
      have hlen : (s.tokens.add (some n.cx.cancel) hk).parents.length =
          s.tokens.parents.length + 1 := List.length_append
      rw [hlen] at hlt hbelow
      refine ⟨hlt, Forest.Below.trans ?_ hbelow⟩
      rw [htokens]
      exact (Tokens.Tree.grows_add _ _ hk').below (hlen ▸ Nat.lt_succ_self _) hscopeToken
    refine .admitted x.node n _ place hn ?_ hnodes hplace hlevels
    refine ⟨rfl, hid, rfl, hcancel, rfl, ⟨x, hx, ?_⟩, Nat.le_refl _, rfl, ?_⟩
    · rw [hop]
      rfl
    · intro spec' settings' htask
      cases htask

/-! ### The invariant -/

/-- What a node takes over from the node that admitted it. -/
structure Inherits (tokens : Tokens.Tree) (m c : Node) : Prop where
  cancel : Forest.Below tokens.links m.cx.cancel c.cx.cancel
  owners : m.cx.owners ⊆ c.cx.owners
  deadline : c.cx.deadline ≤ m.cx.deadline
  selection : ∀ spec settings, c.task = .agent spec settings → ∃ held selected,
    m.tools = some held ∧ spec.tools = some selected ∧
      ∀ name ∈ selected, name ∈ held ∧ name ≠ submitResult

/-- What every node satisfies by itself. -/
structure NodeOk (s : State) (i : NodeId) (n : Node) : Prop where
  id : n.cx.id = i
  cancel : n.cx.cancel < s.tokens.parents.length
  owners : ∀ k ∈ n.cx.owners, k < s.tokens.parents.length
  owner : ∀ k ∈ n.owner, k ∈ n.cx.owners
  frozen : ∀ names, n.tools = some names → ∃ spec settings, n.task = .agent spec settings ∧
    ∀ selected, spec.tools = some selected →
      ∀ name ∈ names, name ∈ selected ∨ (name = submitResult ∧ settings.output.isSome)

/-- Nodes and scopes agree, and every node is wired below its parent. -/
structure Wired (s : State) : Prop where
  levels : s.nodes.map Node.level = s.levels
  node : ∀ (i : NodeId) (n : Node), s.nodes[i]? = some n → NodeOk s i n
  inherits : ∀ (i p : NodeId) (c : Node), s.nodes[i]? = some c → c.cx.parent = some p →
    ∃ m, s.nodes[p]? = some m ∧ Inherits s.tokens m c
  tickets : ∀ x, x ∈ s.tickets ∨ x ∈ s.performed →
    ∀ k ∈ x.op.owner, k < s.tokens.parents.length

theorem NodeOk.step {s t : State} {i : NodeId} {n n' : Node} (h : NodeOk s i n)
    (htokens : s.tokens.Grows t.tokens) (hn : Renewed n n') : NodeOk t i n' := by
  refine ⟨?_, ?_, ?_, ?_, ?_⟩
  · rw [hn.cx]
    exact h.id
  · rw [hn.cx]
    exact Nat.lt_of_lt_of_le h.cancel htokens.length_le
  · intro k hk
    rw [hn.cx] at hk
    exact Nat.lt_of_lt_of_le (h.owners k hk) htokens.length_le
  · rw [hn.owner, hn.cx]
    exact h.owner
  · intro names hnames
    rcases hn.tools with heq | ⟨hnone, spec, settings, made, tools, htask, hmade, htools⟩
    · obtain ⟨spec, settings, htask, hfrozen⟩ := h.frozen names (heq ▸ hnames)
      exact ⟨spec, settings, hn.task ▸ htask, hfrozen⟩
    · obtain rfl := Option.some.inj (htools.symm.trans hnames)
      exact ⟨spec, settings, hn.task ▸ htask, fun selected hselected =>
        nodeTools_names hmade hselected⟩

theorem Inherits.step {t u : Tokens.Tree} {m m' c c' : Node} (h : Inherits t m c)
    (htokens : t.Grows u) (hc : c.cx.cancel < t.parents.length) (hm' : Renewed m m')
    (hc' : Renewed c c') : Inherits u m' c' := by
  refine ⟨?_, ?_, ?_, ?_⟩
  · rw [hm'.cx, hc'.cx]
    exact htokens.below hc h.cancel
  · rw [hm'.cx, hc'.cx]
    exact h.owners
  · rw [hm'.cx, hc'.cx]
    exact h.deadline
  · intro spec settings htask
    rw [hc'.task] at htask
    obtain ⟨held, selected, hheld, hselected, hsub⟩ := h.selection spec settings htask
    exact ⟨held, selected, hm'.tools_some hheld, hselected, hsub⟩

/-- Renewed nodes have the levels they had. -/
theorem levels_renewed {xs ys : List Node} (hlength : ys.length = xs.length)
    (h : ∀ (i : NodeId) (n : Node), xs[i]? = some n → ∃ n', ys[i]? = some n' ∧ Renewed n n') :
    ys.map Node.level = xs.map Node.level := by
  apply List.ext_getElem?
  intro i
  rw [List.getElem?_map, List.getElem?_map]
  by_cases hi : i < xs.length
  · obtain ⟨n', hn', hrenewed⟩ := h i _ (List.getElem?_eq_getElem hi)
    rw [hn', List.getElem?_eq_getElem hi, Option.map_some, Option.map_some, hrenewed.level]
  · rw [List.getElem?_eq_none (Nat.le_of_not_lt hi),
      List.getElem?_eq_none (hlength ▸ Nat.le_of_not_lt hi)]

/-- A step keeps what the tickets know. -/
theorem tickets_step {cfg : Config} {s t : State} (hm : Moved cfg s t)
    (h : ∀ x, x ∈ s.tickets ∨ x ∈ s.performed →
      ∀ k ∈ x.op.owner, k < s.tokens.parents.length) :
    ∀ x, x ∈ t.tickets ∨ x ∈ t.performed →
      ∀ k ∈ x.op.owner, k < t.tokens.parents.length := by
  intro x hx k hk
  apply Nat.lt_of_lt_of_le _ hm.tokens.length_le
  rcases hm.tickets x hx with hold | hnew
  · exact h x hold k hk
  · exact of_decide_eq_true (hnew.owner k hk)

theorem wired_step {cfg : Config} {s t : State} (h : Wired s) (hm : Moved cfg s t) :
    Wired t := by
  have htickets := tickets_step hm h.tickets
  cases grown_of_moved hm.nodes with
  | renewed hlength hnodes hlevels =>
    -- A node after the step is one from before.
    have hback : ∀ (i : NodeId) (n' : Node), t.nodes[i]? = some n' →
        ∃ n, s.nodes[i]? = some n ∧ Renewed n n' := by
      intro i n' hn'
      have hlt : i < s.nodes.length := hlength ▸ (List.getElem?_eq_some_iff.mp hn').1
      obtain ⟨n'', hn'', hrenewed⟩ := hnodes i _ (List.getElem?_eq_getElem hlt)
      obtain rfl := Option.some.inj (hn'.symm.trans hn'')
      exact ⟨_, List.getElem?_eq_getElem hlt, hrenewed⟩
    refine ⟨?_, ?_, ?_, htickets⟩
    · rw [levels_renewed hlength hnodes, h.levels, hlevels]
    · intro i n' hn'
      obtain ⟨n, hn, hrenewed⟩ := hback i n' hn'
      exact (h.node i n hn).step hm.tokens hrenewed
    · intro i p c' hc' hp
      obtain ⟨c, hc, hrenewed⟩ := hback i c' hc'
      rw [hrenewed.cx] at hp
      obtain ⟨m, hm', hinherits⟩ := h.inherits i p c hc hp
      obtain ⟨m', hm'', hrenewedParent⟩ := hnodes p m hm'
      exact ⟨m', hm'',
        hinherits.step hm.tokens (h.node i c hc).cancel hrenewedParent hrenewed⟩
  | admitted p m c scope hparent hc hnodes hscope hlevels =>
    have hid : m.cx.id = p := (h.node p m hparent).id
    have hlength : s.nodes.length = s.session.ledger.scopes.length := by
      have heq := congrArg List.length h.levels
      rwa [State.levels, List.length_map, List.length_map] at heq
    -- The parent's scope stands where the parent does.
    have hlevel : scope.level = m.level := by
      have heq := congrArg (fun xs => xs[p]?) h.levels
      simp only [State.levels, List.getElem?_map, hparent, Option.map_some] at heq
      rw [hid] at hscope
      rw [hscope, Option.map_some] at heq
      exact (Option.some.inj heq).symm
    have hdepth : scope.depth = m.cx.depth := congrArg (fun level => level.2.1) hlevel
    have hsplit : ∀ (i : NodeId) (n' : Node), t.nodes[i]? = some n' →
        s.nodes[i]? = some n' ∨ (i = s.nodes.length ∧ n' = c) := by
      intro i n' hn'
      rw [hnodes] at hn'
      by_cases hlt : i < s.nodes.length
      · rw [List.getElem?_append_left hlt] at hn'
        exact Or.inl hn'
      · have hlast := (List.getElem?_eq_some_iff.mp hn').1
        rw [List.length_append, List.length_singleton] at hlast
        obtain rfl : i = s.nodes.length :=
          Nat.le_antisymm (Nat.lt_succ_iff.mp hlast) (Nat.le_of_not_lt hlt)
        rw [List.getElem?_concat_length] at hn'
        exact Or.inr ⟨rfl, (Option.some.inj hn').symm⟩
    have hkeep : ∀ (i : NodeId) (n : Node), s.nodes[i]? = some n → t.nodes[i]? = some n := by
      intro i n hn
      rw [hnodes, List.getElem?_append_left (List.getElem?_eq_some_iff.mp hn).1]
      exact hn
    refine ⟨?_, ?_, ?_, htickets⟩
    · rw [hnodes, List.map_append, List.map_singleton, h.levels, hlevels, hdepth]
      unfold Node.level
      rw [hc.parent, hc.depth]
    · intro i n' hn'
      rcases hsplit i n' hn' with hold | ⟨rfl, rfl⟩
      · exact (h.node i n' hold).step hm.tokens (.refl n')
      · refine ⟨by rw [hc.id, hlength], hc.cancel.1, ?_, ?_, ?_⟩
        · intro k hk
          rw [hc.owners] at hk
          rcases List.mem_append.mp hk with hk | hk
          · exact Nat.lt_of_lt_of_le ((h.node p m hparent).owners k hk) hm.tokens.length_le
          · obtain ⟨x, hx, howner⟩ := hc.owner
            apply Nat.lt_of_lt_of_le _ hm.tokens.length_le
            exact h.tickets x (Or.inl hx) k (howner ▸ Option.mem_toList.mp hk)
        · intro k hk
          rw [hc.owners]
          exact List.mem_append_right _ (Option.mem_toList.mpr hk)
        · intro names hnames
          rw [hc.tools] at hnames
          cases hnames
    · intro i q c' hc' hq
      rcases hsplit i c' hc' with hold | ⟨rfl, rfl⟩
      · obtain ⟨m', hm', hinherits⟩ := h.inherits i q c' hold hq
        exact ⟨m', hkeep q m' hm',
          hinherits.step hm.tokens (h.node i c' hold).cancel (.refl m') (.refl c')⟩
      · obtain rfl : p = q := by
          rw [hc.parent, hid] at hq
          exact Option.some.inj hq
        refine ⟨m, hkeep p m hparent, hc.cancel.2, ?_, hc.deadline, hc.selection⟩
        rw [hc.owners]
        exact List.subset_append_left _ _

theorem wired_init (cfg : Config) : Wired (system cfg).init := by
  have hroot : ∀ (i : NodeId) (n : Node), (system cfg).init.nodes[i]? = some n →
      i = 0 ∧ n = rootNode cfg := by
    intro i n hn
    have hmem := List.mem_of_getElem? hn
    have hlt := (List.getElem?_eq_some_iff.mp hn).1
    exact ⟨Nat.lt_one_iff.mp hlt, List.mem_singleton.mp hmem⟩
  refine ⟨rfl, ?_, ?_, ?_⟩
  · intro i n hn
    obtain ⟨rfl, rfl⟩ := hroot i n hn
    refine ⟨rfl, Nat.lt_succ_self 1, ?_, ?_, ?_⟩
    · intro k hk
      cases hk
    · intro k hk
      cases hk
    · intro names hnames
      cases hnames
  · intro i p c hc hp
    obtain ⟨-, rfl⟩ := hroot i c hc
    cases hp
  · intro x hx
    rcases hx with hx | hx
    · cases hx
    · cases hx

theorem Wired.moved {cfg : Config} {s t : State} {l : Label} (h : Wired s)
    (hstep : step cfg s l = some t) : Moved cfg s t := by
  apply moved_of_step _ hstep
  intro n hn
  obtain ⟨i, hi⟩ := List.getElem?_of_mem hn
  exact decide_eq_true (h.node i n hi).cancel

theorem wired_of_reachable {cfg : Config} {s : State} (h : (system cfg).Reachable s) : Wired s :=
  LTS.System.invariant (wired_init cfg)
    (fun _ _ _ hs _ hstep => wired_step hs (hs.moved hstep)) s h

/-- The ledger of a tree is the ledger of a session. -/
theorem session_reachable {cfg : Config} {s : State} (h : (system cfg).Reachable s) :
    (Ledger.sessions cfg.limits).Reachable s.session := by
  refine (LTS.System.invariant (P := fun u : State => Wired u ∧
    (Ledger.sessions cfg.limits).Reachable u.session) ⟨wired_init cfg, .init⟩ ?_ s h).2
  intro u l v hu _ hstep
  have hmoved := hu.1.moved hstep
  refine ⟨wired_step hu.1 hmoved, ?_⟩
  rcases hmoved.session with heq | ⟨call, hcall⟩
  · rw [heq]
    exact hu.2
  · exact hu.2.next hcall

/-! ### Along the tree -/

/-- The nodes and the scopes have the same links. -/
theorem Wired.links {s : State} (h : Wired s) : s.links = s.session.ledger.links := by
  funext i
  have heq := congrArg (fun xs => (xs[i]?).map Prod.fst) h.levels
  simp only [State.levels, List.getElem?_map, Option.map_map] at heq
  exact heq

/-- Tokens and owners are inherited from every node above. -/
theorem Wired.above {s : State} (h : Wired s) {a i : NodeId} {m n : Node}
    (hbelow : Forest.Below s.links a i) (hm : s.nodes[a]? = some m) (hn : s.nodes[i]? = some n) :
    Forest.Below s.tokens.links m.cx.cancel n.cx.cancel ∧ m.cx.owners ⊆ n.cx.owners ∧
      n.cx.deadline ≤ m.cx.deadline := by
  -- Up the path from the node, one parent at a time.
  induction hbelow using Relation.ReflTransGen.head_induction_on generalizing n with
  | refl =>
    obtain rfl := Option.some.inj (hm.symm.trans hn)
    exact ⟨.refl _, fun _ hk => hk, Nat.le_refl _⟩
  | head hp _ ih =>
    unfold Forest.IsParent State.links at hp
    rw [hn, Option.map_some, Option.some.injEq] at hp
    obtain ⟨c, hc, hinherits⟩ := h.inherits _ _ n hn hp
    obtain ⟨hcancel, howners, hdeadline⟩ := ih hc
    exact ⟨hcancel.trans hinherits.cancel, fun k hk => hinherits.owners (howners hk),
      Nat.le_trans hinherits.deadline hdeadline⟩

/-- Every node stands where its ledger scope does. -/
theorem Wired.scope {s : State} (h : Wired s) {i : NodeId} {n : Node}
    (hn : s.nodes[i]? = some n) : ∃ scope, s.session.ledger.scopes[i]? = some scope ∧
      scope.parent = n.cx.parent ∧ scope.depth = n.cx.depth ∧ scope.agent = n.task.isAgent := by
  have heq := congrArg (fun xs => xs[i]?) h.levels
  simp only [State.levels, List.getElem?_map, hn, Option.map_some] at heq
  obtain ⟨scope, hscope, hlevel⟩ := Option.map_eq_some_iff.mp heq.symm
  simp only [Ledger.Scope.level, Node.level, Prod.mk.injEq] at hlevel
  exact ⟨scope, hscope, hlevel⟩

end Kyora.Tree
