import Kyora.Tree.Wiring
import Kyora.Ledger.Budget

/-! # Attenuation of authority

  Whatever specifications children are spawned with and whatever the factory
  makes for them, no node gets more than the node that admitted it had: no
  further tool but `submit_result`, no later deadline, no larger budget, and
  one level less to spawn on.
-/

namespace Kyora.Tree

/-- What a child agent may hold: tools of its parent, and `submit_result`
    exactly for an output schema. -/
structure ToolsWithin (names held : List String) (settings : AgentSettings) : Prop where
  held : ∀ name ∈ names, name ∈ held ∨ name = submitResult
  submit : submitResult ∈ names → settings.output.isSome

/-- The law of attenuation in one state of the tree. -/
structure Attenuated (cfg : Config) (s : State) : Prop where
  tools : ∀ {i p : NodeId} {c m : Node} {names : List String}, s.nodes[i]? = some c →
    s.nodes[p]? = some m → c.cx.parent = some p → c.tools = some names →
    ∃ spec settings held, c.task = .agent spec settings ∧ m.tools = some held ∧
      ToolsWithin names held settings
  leaf : ∀ {i : NodeId} {n : Node} {call : LlmCall}, s.nodes[i]? = some n →
    n.task = .leaf call → n.tools = none
  deadline : ∀ {i p : NodeId} {c m : Node}, s.nodes[i]? = some c → s.nodes[p]? = some m →
    c.cx.parent = some p → c.cx.deadline ≤ m.cx.deadline
  /-- Every node has a scope of the ledger, with a limit within each one above. -/
  scope : ∀ {i : NodeId} {n : Node}, s.nodes[i]? = some n →
    ∃ scope, s.session.ledger.scopes[i]? = some scope
  limit : ∀ {a i : NodeId} {upper lower : Ledger.Scope}, Forest.Below s.links a i →
    s.session.ledger.scopes[a]? = some upper → s.session.ledger.scopes[i]? = some lower →
    lower.budget.limit ≤ upper.budget.limit
  depth : ∀ {i p : NodeId} {c m : Node}, s.nodes[i]? = some c → s.nodes[p]? = some m →
    c.cx.parent = some p → c.task.isAgent →
    c.cx.depth = m.cx.depth + 1 ∧ c.cx.depth ≤ cfg.limits.maxDepth
  /-- Along the whole tree: what a node above does not hold is held by no node
      below it. -/
  below : ∀ {a i : NodeId} {m n : Node} {names : List String}, Forest.Below s.links a i →
    s.nodes[a]? = some m → s.nodes[i]? = some n → n.tools = some names →
    ∃ held, m.tools = some held ∧ ∀ name ∈ names, name ≠ submitResult → name ∈ held

/-- What a frozen child holds. -/
theorem Wired.tools {s : State} (h : Wired s) {i p : NodeId} {c m : Node} {names : List String}
    (hc : s.nodes[i]? = some c) (hm : s.nodes[p]? = some m) (hp : c.cx.parent = some p)
    (hnames : c.tools = some names) :
    ∃ spec settings held, c.task = .agent spec settings ∧ m.tools = some held ∧
      ToolsWithin names held settings := by
  obtain ⟨spec, settings, htask, hfrozen⟩ := (h.node i c hc).frozen names hnames
  obtain ⟨m', hm', hinherits⟩ := h.inherits i p c hc hp
  obtain rfl := Option.some.inj (hm'.symm.trans hm)
  obtain ⟨held, selected, hheld, hselected, hsub⟩ := hinherits.selection spec settings htask
  have hcases := hfrozen selected hselected
  refine ⟨spec, settings, held, htask, hheld, ?_, ?_⟩
  · intro name hname
    rcases hcases name hname with hin | ⟨hsubmit, -⟩
    · exact Or.inl (hsub name hin).1
    · exact Or.inr hsubmit
  · intro hname
    rcases hcases submitResult hname with hin | ⟨-, houtput⟩
    · exact absurd rfl (hsub submitResult hin).2
    · exact houtput

/-- Tools are handed down the tree, never up. -/
theorem Wired.tools_below {s : State} (h : Wired s) {a i : NodeId} {m n : Node}
    {names : List String} (hbelow : Forest.Below s.links a i) (hm : s.nodes[a]? = some m)
    (hn : s.nodes[i]? = some n) (hnames : n.tools = some names) :
    ∃ held, m.tools = some held ∧ ∀ name ∈ names, name ≠ submitResult → name ∈ held := by
  induction hbelow using Relation.ReflTransGen.head_induction_on generalizing n names with
  | refl =>
    obtain rfl := Option.some.inj (hm.symm.trans hn)
    exact ⟨names, hnames, fun name hname _ => hname⟩
  | head hp _ ih =>
    unfold Forest.IsParent State.links at hp
    rw [hn, Option.map_some, Option.some.injEq] at hp
    obtain ⟨c, hc, -⟩ := h.inherits _ _ n hn hp
    obtain ⟨_, _, held, -, hheld, hwithin⟩ := h.tools hn hc hp hnames
    obtain ⟨top, htop, hall⟩ := ih hc hheld
    refine ⟨top, htop, ?_⟩
    intro name hname hne
    rcases hwithin.held name hname with hin | hsubmit
    · exact hall name hin hne
    · exact absurd hsubmit hne

/-- Authority only shrinks down the tree. -/
theorem authority_attenuated (cfg : Config) {s : State} (h : (system cfg).Reachable s) :
    Attenuated cfg s := by
  have hwired := wired_of_reachable h
  have hsession := session_reachable h
  have hlevelled := Ledger.levelled_of_reachable hsession
  refine ⟨hwired.tools, ?_, ?_, ?_, ?_, ?_, hwired.tools_below⟩
  · intro i n call hn htask
    cases htools : n.tools with
    | none => rfl
    | some names =>
      obtain ⟨spec, settings, hagent, -⟩ := (hwired.node i n hn).frozen names htools
      rw [htask] at hagent
      cases hagent
  · intro i p c m hc hm hp
    obtain ⟨m', hm', hinherits⟩ := hwired.inherits i p c hc hp
    obtain rfl := Option.some.inj (hm'.symm.trans hm)
    exact hinherits.deadline
  · intro i n hn
    obtain ⟨scope, hscope, -⟩ := hwired.scope hn
    exact ⟨scope, hscope⟩
  · intro a i upper lower hbelow hupper hlower
    rw [hwired.links] at hbelow
    exact (Ledger.bounded_of_reachable hsession).limit_le
      (Ledger.matched_of_reachable hsession) hbelow hupper hlower
  · intro i p c m hc hm hp hagent
    obtain ⟨lower, hlower, hparent, hdepth, hkind⟩ := hwired.scope hc
    obtain ⟨upper, hupper, -, hdepth', -⟩ := hwired.scope hm
    obtain ⟨upper', hupper', hlevel⟩ := hlevelled.child hlower (hparent.trans hp)
    obtain rfl := Option.some.inj (hupper'.symm.trans hupper)
    rw [hdepth, hdepth', hkind, hagent] at hlevel
    exact ⟨hlevel, hdepth ▸ hlevelled.maxDepth hlower⟩

/-! ### A child with an output schema -/

/-- A child without tools of its parent that has to submit its result. -/
def contractSpec : ChildSpec where
  task := "t"
  name := none
  model := none
  tools := some []
  maxTurns := none
  budget := some 5000
  timeout := some 10
  init := none
  preamble := none
  originCell := none
  output := some (.object [("type", .string "object")])

/-- The root spawns a child with an output schema, and both get an empty
    toolset from the factory. -/
def contractLabels : List Label :=
  [.freeze 0 (.ok .empty), .check 0 (.spawnAgent contractSpec .node), .act 0,
    .freeze 1 (.ok .empty)]

theorem contract_run : ∃ s root child, (system demo).Reachable s ∧
    s.nodes[0]? = some root ∧ root.tools = some [] ∧
    s.nodes[1]? = some child ∧ child.cx.parent = some 0 ∧ child.tools = some [submitResult] := by
  have hrun : ((system demo).run (system demo).init contractLabels).map
      (fun s => s.nodes.map fun n => (n.cx.parent, n.tools)) =
        some [(none, some []), (some 0, some [submitResult])] := by decide +kernel
  obtain ⟨s, hs, heq⟩ := Option.map_eq_some_iff.mp hrun
  have hget : ∀ (i : NodeId), (s.nodes[i]?).map (fun n => (n.cx.parent, n.tools)) =
      [(none, some []), (some 0, some [submitResult])][i]? := by
    intro i
    rw [← heq, List.getElem?_map]
  obtain ⟨root, hroot, hrootTools⟩ := Option.map_eq_some_iff.mp (hget 0)
  obtain ⟨child, hchild, hchildTools⟩ := Option.map_eq_some_iff.mp (hget 1)
  obtain ⟨-, hrootTools⟩ := Prod.mk.inj hrootTools
  obtain ⟨hparent, hchildTools⟩ := Prod.mk.inj hchildTools
  exact ⟨s, root, child, LTS.System.reachable_of_run hs, hroot, hrootTools, hchild, hparent,
    hchildTools⟩

/-- `submit_result` is the one tool a descendant can hold that the root does
    not. -/
theorem authority_attenuated_submit : ¬ ∀ (s : State) (root n : Node) (i : NodeId)
    (held names : List String) (name : String), (system demo).Reachable s →
      s.nodes[0]? = some root → s.nodes[i]? = some n → Forest.Below s.links 0 i →
      root.tools = some held → n.tools = some names → name ∉ held → name ∉ names := by
  intro hall
  obtain ⟨s, root, child, hs, hroot, hheld, hchild, hparent, hnames⟩ := contract_run
  have hbelow : Forest.Below s.links 0 1 := by
    have hlink : Forest.IsParent s.links 1 0 := by
      unfold Forest.IsParent State.links
      rw [hchild, Option.map_some, hparent]
    exact Relation.ReflTransGen.single hlink
  exact hall s root child 1 [] [submitResult] submitResult hs hroot hchild hbelow hheld hnames
    List.not_mem_nil List.mem_cons_self

/-- That child is within its parent's authority. -/
theorem authority_attenuated_contract : ∃ s child, (system demo).Reachable s ∧
    s.nodes[1]? = some child ∧ child.tools = some [submitResult] ∧ Attenuated demo s := by
  obtain ⟨s, root, child, hs, -, -, hchild, -, hnames⟩ := contract_run
  exact ⟨s, child, hs, hchild, hnames, authority_attenuated demo hs⟩

end Kyora.Tree
