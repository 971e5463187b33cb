import Kyora.Tree.Basic
import Kyora.Ledger.Admission

/-! # Steps of the tree

  One label is one entry point of a node, one choice of the environment (a
  token cancelled by whoever holds it, time passing, what a factory makes), or
  one call on the ledger. Checks and the acts they allow are separate labels.
-/

namespace Kyora.Tree

/-! ### The system -/

inductive Label where
  /-- Time passes. -/
  | tick (nanos : Nat)
  /-- The environment makes a token, a child of a known one or a new root. -/
  | token (parent : Option Nat)
  /-- Somebody cancels a token: a user, a cell, a handle, a watcher or a timer. -/
  | cancel (token : Nat)
  /-- An agent gets its toolset, with whatever the factory makes of it. -/
  | freeze (node : NodeId) (made : Except String Tool.Toolset)
  /-- A node ends: its work and its scope are closed and its token cancelled. -/
  | close (node : NodeId)
  /-- A node makes the check that comes before an operation. -/
  | check (node : NodeId) (op : Op)
  /-- A node does what its check allowed. -/
  | act (ticket : Nat)
  | settle (x : Ledger.Issued) (charge : Ledger.Charge)
  | shutdown (node : NodeId)

/-- The operation itself, after its check. The flag says whether it was done
    or refused. -/
def perform (cfg : Config) (s : State) (n : Node) : Op → Option (State × Bool)
  | .spawnAgent spec owner => (spawnAgent cfg s n spec owner).map fun r => (r.1, r.2.isOk)
  | .llm call owner => (llm cfg s n call owner).map fun r => (r.1, r.2.isOk)
  | .reserve promptEstimate maxTokens =>
    (Ledger.reserve s.session.ledger n.cx.id promptEstimate maxTokens).map fun r =>
      ({ s with session := s.session.keep n.cx.id r }, r.2.isOk)
  | .dispatch attempt =>
    -- A request is dispatched under the reservation made for it.
    if s.session.outstanding.any fun x => x.node == n.cx.id && x.reservation.id == attempt then
      some (s, true)
    else none
  | .send | .receive | .wait | .toolCall | .answer => some (s, true)

def step (cfg : Config) (s : State) : Label → Option State
  | .tick nanos => some { s with now := s.now + nanos }
  | .token none => some { s with tokens := s.tokens.add none fun _ hp => nomatch hp }
  | .token (some k) => (childToken s.tokens k).map fun tokens => { s with tokens }
  | .cancel k => if s.knows k then some { s with tokens := s.tokens.cancel k } else none
  | .freeze i made =>
    match s.nodes[i]? with
    | some ⟨cx, .agent spec settings, owner, none, closed⟩ =>
      match nodeTools made spec settings with
      | .ok tools =>
        let n : Node := ⟨cx, .agent spec settings, owner, some tools.names, closed⟩
        some { s with nodes := s.nodes.set i n }
      | .error _ => some s
    | _ => none
  | .close i =>
    match s.nodes[i]? with
    | none => none
    | some n =>
      (Ledger.closeAdmission s.session.ledger i).map fun ledger =>
        { s with
          session := { s.session with ledger }
          tokens := s.tokens.cancel n.cx.cancel
          nodes := s.nodes.set i { n with closed := true } }
  | .check i op =>
    match s.nodes[i]? with
    | none => none
    | some n =>
      if op.owner.all s.knows then
        match op.check s n with
        | (s, .ok ()) =>
          some { s with
            tickets := s.tickets ++ [⟨s.nextTicket, i, op⟩]
            nextTicket := s.nextTicket + 1 }
        | (s, .error _) => some s
      else none
  | .act id =>
    match s.tickets.find? (·.id == id) with
    | none => none
    | some ticket =>
      match s.nodes[ticket.node]? with
      | none => none
      | some n =>
        (perform cfg s n ticket.op).map fun r =>
          { r.1 with
            tickets := s.tickets.eraseP (·.id == id)
            performed := s.performed ++ if r.2 then [ticket] else [] }
  | .settle x charge =>
    (Ledger.step cfg.limits s.session (.settle x charge)).map fun session => { s with session }
  | .shutdown i =>
    (Ledger.step cfg.limits s.session (.shutdown i)).map fun session => { s with session }

/-- The root node, with the invocation's token above its own. -/
def rootNode (cfg : Config) : Node where
  cx :=
    { id := 0
      parent := none
      depth := 0
      cancel := 1
      deadline := cfg.limits.runTimeout
      model := cfg.root.model
      cwd := cfg.root.cwd
      options := cfg.root.options
      owners := [] }
  task := .agent cfg.root
    { name := "root"
      originCell := none
      init := none
      maxTurns := cfg.limits.maxTurns
      output := none }
  owner := none
  tools := none
  closed := false

/-- Every tree of nodes a run can build, and everything its nodes can do. -/
def system (cfg : Config) : LTS.System State Label where
  init :=
    { session := (Ledger.sessions cfg.limits).init
      tokens := Tokens.Tree.root.add (some 0) fun _ hp => Option.some.inj hp ▸ Nat.zero_lt_one
      nodes := [rootNode cfg]
      now := 0
      tickets := []
      nextTicket := 0
      performed := [] }
  step := step cfg

/-- A frontend with one provider. -/
def demo : Config where
  providers := ["p"]
  limits := .default
  llmModel := ⟨"p", "m"⟩
  subagentPrompt := ""
  root := ⟨"", ⟨"p", "m"⟩, "", none, none, ⟨none, none, false, none⟩⟩
  fits := fun _ => true
  print := fun _ => ""

/-! ### What the operations do -/

theorem childToken_some {t u : Tokens.Tree} {k : Nat} (h : childToken t k = some u) :
    ∃ hk, u = t.add (some k) hk := by
  unfold childToken at h
  split at h
  · exact ⟨_, (Option.some.inj h).symm⟩
  · cases h

/-- A child agent is admitted as planned, or nothing changes. -/
theorem spawnAgent_cases {cfg : Config} {s t : State} {n : Node} {spec : ChildSpec}
    {owner : Owner} {result : Except RecursionError NodeId}
    (h : spawnAgent cfg s n spec owner = some (t, result)) :
    (t = s ∧ ∃ e, result = .error e) ∨
    ∃ plan tokens ledger id, planChild cfg s n spec owner = .ok plan ∧
      childToken s.tokens n.cx.cancel = some tokens ∧
      Ledger.admitChild cfg.limits s.session.ledger n.cx.id true spec.budget =
        some (ledger, .ok id) ∧
      result = .ok id ∧
      t = { s with
        session := { s.session with ledger }
        tokens
        nodes := s.nodes ++ [childNode cfg n spec plan id s.tokens.parents.length] } := by
  unfold spawnAgent at h
  split at h
  · obtain ⟨rfl, rfl⟩ := Prod.mk.inj (Option.some.inj h)
    exact Or.inl ⟨rfl, _, rfl⟩
  · next plan hplan =>
    split at h
    · cases h
    · next tokens htokens =>
      split at h
      · cases h
      · obtain ⟨rfl, rfl⟩ := Prod.mk.inj (Option.some.inj h)
        exact Or.inl ⟨rfl, _, rfl⟩
      · next ledger id hcall =>
        obtain ⟨rfl, rfl⟩ := Prod.mk.inj (Option.some.inj h)
        exact Or.inr ⟨plan, tokens, ledger, id, hplan, htokens, hcall, rfl, rfl⟩

/-- A leaf is admitted below a fresh scope token, or nothing changes. -/
theorem llm_cases {cfg : Config} {s t : State} {n : Node} {call : LlmCall} {owner : Nat}
    {result : Except RecursionError NodeId} (h : llm cfg s n call owner = some (t, result)) :
    (t = s ∧ ∃ e, result = .error e) ∨
    ∃ model scope tokens ledger id, childToken s.tokens n.cx.cancel = some scope ∧
      childToken scope s.tokens.parents.length = some tokens ∧
      Ledger.admitChild cfg.limits s.session.ledger n.cx.id false none =
        some (ledger, .ok id) ∧
      result = .ok id ∧
      t = { s with
        session := { s.session with ledger }
        tokens
        nodes := s.nodes ++
          [leafNode n call model owner id (s.tokens.parents.length + 1)] } := by
  unfold llm at h
  split at h
  · obtain ⟨rfl, rfl⟩ := Prod.mk.inj (Option.some.inj h)
    exact Or.inl ⟨rfl, _, rfl⟩
  · simp only at h
    split at h
    · obtain ⟨rfl, rfl⟩ := Prod.mk.inj (Option.some.inj h)
      exact Or.inl ⟨rfl, _, rfl⟩
    · split at h
      · cases h
      · next tokens htokens =>
        obtain ⟨scope, hscope, htokens⟩ := Option.bind_eq_some_iff.mp htokens
        split at h
        · obtain ⟨rfl, rfl⟩ := Prod.mk.inj (Option.some.inj h)
          exact Or.inl ⟨rfl, _, rfl⟩
        · split at h
          · cases h
          · obtain ⟨rfl, rfl⟩ := Prod.mk.inj (Option.some.inj h)
            exact Or.inl ⟨rfl, _, rfl⟩
          · next ledger id hcall =>
            obtain ⟨rfl, rfl⟩ := Prod.mk.inj (Option.some.inj h)
            exact Or.inr ⟨_, scope, tokens, ledger, id, hscope, htokens, hcall, rfl, rfl⟩

/-! ### What one step does -/

/-- Agents take a level of their own, leaves stay on their parent's. -/
def Task.isAgent : Task → Bool
  | .agent .. => true
  | .leaf _ => false

/-- Where a node hangs and what it is. -/
def Node.level (n : Node) : Option NodeId × Nat × Bool :=
  (n.cx.parent, n.cx.depth, n.task.isAgent)

/-- The levels of the ledger's scopes. -/
def State.levels (s : State) : List (Option NodeId × Nat × Bool) :=
  s.session.ledger.scopes.map Ledger.Scope.level

/-- How a step changes the nodes. -/
inductive NodesMoved (cfg : Config) (s t : State) : Prop where
  | kept (hnodes : t.nodes = s.nodes) (hlevels : t.levels = s.levels)
  /-- An agent's tools are frozen. -/
  | froze (i : NodeId) (n : Node) (spec : AgentSpec) (settings : AgentSettings)
      (made : Except String Tool.Toolset) (tools : Tool.Toolset)
      (hn : s.nodes[i]? = some n) (htask : n.task = .agent spec settings)
      (hnone : n.tools = none) (hmade : nodeTools made spec settings = .ok tools)
      (hnodes : t.nodes = s.nodes.set i { n with tools := some tools.names })
      (hlevels : t.levels = s.levels)
  | closed (i : NodeId) (n : Node) (hn : s.nodes[i]? = some n)
      (hnodes : t.nodes = s.nodes.set i { n with closed := true })
      (hlevels : t.levels = s.levels)
  /-- A child agent is admitted as its parent planned. -/
  | child (x : Ticket) (n : Node) (spec : ChildSpec) (owner : Owner) (plan : ChildPlan)
      (ledger : Ledger.State) (id : NodeId)
      (hx : x ∈ s.tickets) (hop : x.op = .spawnAgent spec owner)
      (hn : s.nodes[x.node]? = some n) (hplan : planChild cfg s n spec owner = .ok plan)
      (htokens : childToken s.tokens n.cx.cancel = some t.tokens)
      (hcall : Ledger.admitChild cfg.limits s.session.ledger n.cx.id true spec.budget =
        some (ledger, .ok id))
      (hledger : t.session.ledger = ledger)
      (hnodes : t.nodes =
        s.nodes ++ [childNode cfg n spec plan id s.tokens.parents.length])
  /-- A leaf is admitted for a caller. -/
  | leaf (x : Ticket) (n : Node) (call : LlmCall) (model : ModelRef) (owner : Nat)
      (scope : Tokens.Tree) (ledger : Ledger.State) (id : NodeId)
      (hx : x ∈ s.tickets) (hop : x.op = .llm call owner) (hn : s.nodes[x.node]? = some n)
      (hscope : childToken s.tokens n.cx.cancel = some scope)
      (htokens : childToken scope s.tokens.parents.length = some t.tokens)
      (hcall : Ledger.admitChild cfg.limits s.session.ledger n.cx.id false none =
        some (ledger, .ok id))
      (hledger : t.session.ledger = ledger)
      (hnodes : t.nodes =
        s.nodes ++ [leafNode n call model owner id (s.tokens.parents.length + 1)])

/-- The ticket was granted to a node that need not stop. -/
structure Granted (s t : State) (x : Ticket) : Prop where
  id : x.id = s.nextTicket
  next : t.nextTicket = s.nextTicket + 1
  running : ∃ n, s.nodes[x.node]? = some n ∧ s.tokens.isCancelled n.cx.cancel = false ∧
    ∀ k ∈ n.cx.owners, s.tokens.isCancelled k = false
  owner : ∀ k ∈ x.op.owner, s.knows k

/-- What one step may do. -/
structure Moved (cfg : Config) (s t : State) : Prop where
  nodes : NodesMoved cfg s t
  tokens : s.tokens.Grows t.tokens
  session : t.session = s.session ∨
    ∃ call, Ledger.step cfg.limits s.session call = some t.session
  tickets : ∀ x, x ∈ t.tickets ∨ x ∈ t.performed →
    (x ∈ s.tickets ∨ x ∈ s.performed) ∨ Granted s t x
  next : s.nextTicket ≤ t.nextTicket

/-- A step that only makes or cancels tokens, or lets time pass. -/
theorem Moved.of_tokens {cfg : Config} {s : State} {tokens : Tokens.Tree} {now : Nat}
    (htokens : s.tokens.Grows tokens) : Moved cfg s { s with tokens, now } :=
  ⟨.kept rfl rfl, htokens, Or.inl rfl, fun _ hx => Or.inl hx, Nat.le_refl _⟩

/-- A call on the ledger that admits nothing. -/
theorem Moved.of_call {cfg : Config} {s : State} {session : Ledger.Session} {l : Ledger.Call}
    (h : Ledger.step cfg.limits s.session l = some session)
    (hl : ∀ parent agent limit, l ≠ .admitChild parent agent limit) :
    Moved cfg s { s with session } :=
  ⟨.kept rfl (Ledger.level_step h hl), .refl _, Or.inr ⟨l, h⟩, fun _ hx => Or.inl hx, Nat.le_refl _⟩

/-- `stopped` cancels at most the node token, and says no only to a node with
    no cancelled token or owner. -/
theorem stop_grows (s : State) (cx : NodeCtx) :
    s.stop cx = { s with tokens := (s.stop cx).tokens } ∧
      s.tokens.Grows (s.stop cx).tokens := by
  unfold State.stop
  split
  · exact ⟨rfl, Tokens.Tree.grows_cancel _ _⟩
  · exact ⟨rfl, .refl _⟩

theorem stopped_false {s t : State} {cx : NodeCtx} (hknown : s.knows cx.cancel)
    (h : stopped s cx = (t, false)) :
    t = s ∧ s.tokens.isCancelled cx.cancel = false ∧
      ∀ k ∈ cx.owners, s.tokens.isCancelled k = false := by
  obtain ⟨rfl, hrunning⟩ := Prod.mk.inj h
  unfold State.stop at hrunning ⊢
  split at hrunning
  · -- A cancelled owner has just cancelled the node token.
    have hcancelled := Tokens.Tree.isCancelled_cancel (t := s.tokens) (of_decide_eq_true hknown)
    rw [hrunning] at hcancelled
    cases hcancelled
  · next hnone =>
    rw [if_neg hnone]
    simp only [hrunning, Bool.not_false, Bool.true_and, Bool.not_eq_true, List.any_eq_false] at hnone
    exact ⟨rfl, hrunning, hnone⟩

/-- Either check passes only for a node that need not stop, and changes nothing
    but the node token otherwise. -/
theorem check_cases {s t : State} {n : Node} {op : Op} {result : Except RecursionError Unit}
    (h : op.check s n = (t, result)) :
    (t = { s with tokens := t.tokens } ∧ s.tokens.Grows t.tokens) ∧
      (result = .ok () → stopped s n.cx = (t, false) ∧ s.now < n.cx.deadline) := by
  have hrunning : ∀ {u : State} {r : Except RecursionError Unit},
      checkRunning s n = (u, r) →
      (u = { s with tokens := u.tokens } ∧ s.tokens.Grows u.tokens) ∧
        (r = .ok () → stopped s n.cx = (u, false) ∧ s.now < n.cx.deadline) := by
    intro u r hcheck
    have hgrows := stop_grows s n.cx
    unfold checkRunning at hcheck
    split at hcheck
    · next v hstopped =>
      obtain ⟨rfl, rfl⟩ := Prod.mk.inj hcheck
      obtain ⟨rfl, -⟩ := Prod.mk.inj hstopped
      exact ⟨hgrows, fun hok => nomatch hok⟩
    · next v hstopped =>
      obtain ⟨rfl, rfl⟩ := Prod.mk.inj hcheck
      have hstop := hstopped
      obtain ⟨rfl, -⟩ := Prod.mk.inj hstopped
      refine ⟨hgrows, ?_⟩
      intro hok
      refine ⟨hstop, ?_⟩
      rw [hgrows.1] at hok
      split at hok
      · cases hok
      · next hlate => exact Nat.lt_of_not_le hlate
  have hopen : checkOpen s n = (t, result) →
      (t = { s with tokens := t.tokens } ∧ s.tokens.Grows t.tokens) ∧
        (result = .ok () → stopped s n.cx = (t, false) ∧ s.now < n.cx.deadline) := by
    intro hcheck
    unfold checkOpen at hcheck
    split at hcheck
    · obtain ⟨rfl, rfl⟩ := Prod.mk.inj hcheck
      exact ⟨⟨rfl, .refl _⟩, fun hok => nomatch hok⟩
    · exact hrunning hcheck
  cases op with
  | spawnAgent spec owner => exact hopen h
  | llm call owner => exact hopen h
  | send => exact hopen h
  | receive => exact hopen h
  | wait => exact hopen h
  | reserve promptEstimate maxTokens => exact hrunning h
  | dispatch attempt => exact hrunning h
  | toolCall => exact hrunning h
  | answer => exact hrunning h

/-- An operation changes nodes, tokens and ledger in one of these ways, and
    touches no ticket. -/
theorem perform_cases {cfg : Config} {s t : State} {n : Node} {x : Ticket} {done : Bool}
    (hx : x ∈ s.tickets) (hn : s.nodes[x.node]? = some n)
    (h : perform cfg s n x.op = some (t, done)) :
    NodesMoved cfg s t ∧ s.tokens.Grows t.tokens ∧
      (t.session = s.session ∨ ∃ call, Ledger.step cfg.limits s.session call = some t.session) ∧
      t.performed = s.performed ∧ t.nextTicket = s.nextTicket := by
  have hstay : NodesMoved cfg s s ∧ s.tokens.Grows s.tokens ∧
      (s.session = s.session ∨ ∃ call, Ledger.step cfg.limits s.session call = some s.session) ∧
      s.performed = s.performed ∧ s.nextTicket = s.nextTicket :=
    ⟨.kept rfl rfl, .refl _, Or.inl rfl, rfl, rfl⟩
  cases hop : x.op with
  | spawnAgent spec owner =>
    rw [hop] at h
    obtain ⟨⟨u, result⟩, hcall, heq⟩ := Option.map_eq_some_iff.mp h
    obtain ⟨rfl, -⟩ := Prod.mk.inj heq
    rcases spawnAgent_cases hcall with
      ⟨rfl, -⟩ | ⟨plan, tokens, ledger, id, hplan, htokens, hadmit, -, rfl⟩
    · exact hstay
    · obtain ⟨hk, hadd⟩ := childToken_some htokens
      refine ⟨.child x n spec owner plan ledger id hx hop hn hplan htokens hadmit rfl rfl,
        hadd ▸ Tokens.Tree.grows_add _ _ hk, ?_, rfl, rfl⟩
      right
      refine ⟨.admitChild n.cx.id true spec.budget, ?_⟩
      simp only [Ledger.step, hadmit, Option.map_some]
  | llm call owner =>
    rw [hop] at h
    obtain ⟨⟨u, result⟩, hcall, heq⟩ := Option.map_eq_some_iff.mp h
    obtain ⟨rfl, -⟩ := Prod.mk.inj heq
    rcases llm_cases hcall with
      ⟨rfl, -⟩ | ⟨model, scope, tokens, ledger, id, hscope, htokens, hadmit, -, rfl⟩
    · exact hstay
    · obtain ⟨hk, hadd⟩ := childToken_some hscope
      obtain ⟨hk', hadd'⟩ := childToken_some htokens
      have hgrows : s.tokens.Grows scope := hadd ▸ Tokens.Tree.grows_add _ _ hk
      refine ⟨.leaf x n call model owner scope ledger id hx hop hn hscope htokens hadmit rfl rfl,
        hgrows.trans (hadd' ▸ Tokens.Tree.grows_add _ _ hk'), ?_, rfl, rfl⟩
      right
      refine ⟨.admitChild n.cx.id false none, ?_⟩
      simp only [Ledger.step, hadmit, Option.map_some]
  | reserve promptEstimate maxTokens =>
    rw [hop] at h
    obtain ⟨r, hcall, heq⟩ := Option.map_eq_some_iff.mp h
    obtain ⟨rfl, -⟩ := Prod.mk.inj heq
    have hstep : Ledger.step cfg.limits s.session (.reserve n.cx.id promptEstimate maxTokens) =
        some (s.session.keep n.cx.id r) := by
      simp only [Ledger.step, hcall, Option.map_some]
    have hmoved := Moved.of_call hstep (by intro _ _ _ hcontra; cases hcontra)
    exact ⟨hmoved.nodes, hmoved.tokens, hmoved.session, rfl, rfl⟩
  | dispatch attempt =>
    rw [hop] at h
    simp only [perform] at h
    split at h
    · obtain ⟨rfl, -⟩ := Prod.mk.inj (Option.some.inj h)
      exact hstay
    · cases h
  | send | receive | wait | toolCall | answer =>
    rw [hop] at h
    obtain ⟨rfl, -⟩ := Prod.mk.inj (Option.some.inj h)
    exact hstay

/-- What any step does, where the checked nodes have known tokens. -/
theorem moved_of_step {cfg : Config} {s t : State} {l : Label}
    (hknown : ∀ n ∈ s.nodes, s.knows n.cx.cancel) (h : step cfg s l = some t) :
    Moved cfg s t := by
  cases l with
  | tick nanos =>
    obtain rfl := Option.some.inj h
    exact .of_tokens (.refl _)
  | token parent =>
    cases parent with
    | none =>
      obtain rfl := Option.some.inj h
      exact .of_tokens (Tokens.Tree.grows_add _ _ _)
    | some k =>
      obtain ⟨tokens, htokens, rfl⟩ := Option.map_eq_some_iff.mp h
      obtain ⟨hk, hadd⟩ := childToken_some htokens
      exact .of_tokens (hadd ▸ Tokens.Tree.grows_add _ _ hk)
  | cancel k =>
    simp only [step] at h
    split at h
    · obtain rfl := Option.some.inj h
      exact .of_tokens (Tokens.Tree.grows_cancel _ _)
    · cases h
  | freeze i made =>
    simp only [step] at h
    split at h
    · next cx spec settings owner closed hn =>
      split at h
      · next tools hmade =>
        obtain rfl := Option.some.inj h
        exact ⟨.froze i _ spec settings made tools hn rfl rfl hmade rfl rfl, .refl _, Or.inl rfl,
          fun _ hx => Or.inl hx, Nat.le_refl _⟩
      · obtain rfl := Option.some.inj h
        exact .of_tokens (.refl _)
    · cases h
  | close i =>
    simp only [step] at h
    split at h
    · cases h
    · next n hn =>
      obtain ⟨ledger, hcall, rfl⟩ := Option.map_eq_some_iff.mp h
      have hstep : Ledger.step cfg.limits s.session (.closeAdmission i) =
          some { s.session with ledger } := by
        simp only [Ledger.step, hcall, Option.map_some]
      have hlevels := Ledger.level_step hstep (by intro _ _ _ hcontra; cases hcontra)
      exact ⟨.closed i n hn rfl hlevels, Tokens.Tree.grows_cancel _ _, Or.inr ⟨_, hstep⟩,
        fun _ hx => Or.inl hx, Nat.le_refl _⟩
  | check i op =>
    simp only [step] at h
    split at h
    · cases h
    · next n hn =>
      split at h
      · next howner =>
        split at h
        · next u hcheck =>
          obtain rfl := Option.some.inj h
          obtain ⟨-, hok⟩ := check_cases hcheck
          obtain ⟨rfl, hrunning⟩ :=
            stopped_false (hknown n (List.mem_of_getElem? hn)) (hok rfl).1
          refine ⟨.kept rfl rfl, .refl _, Or.inl rfl, ?_, Nat.le_succ _⟩
          intro x hx
          rcases hx with hx | hx
          · rcases List.mem_append.mp hx with hx | hx
            · exact Or.inl (Or.inl hx)
            · obtain rfl := List.mem_singleton.mp hx
              refine Or.inr ⟨rfl, rfl, ⟨n, hn, hrunning⟩, ?_⟩
              intro k hk
              rw [Option.mem_def.mp hk] at howner
              exact howner
          · exact Or.inl (Or.inr hx)
        · next u e hcheck =>
          obtain rfl := Option.some.inj h
          obtain ⟨⟨heq, hgrows⟩, -⟩ := check_cases hcheck
          rw [heq]
          exact .of_tokens hgrows
      · cases h
  | act id =>
    simp only [step] at h
    split at h
    · cases h
    · next x hfind =>
      have hx := List.mem_of_find?_eq_some hfind
      split at h
      · cases h
      · next n hn =>
        obtain ⟨⟨u, done⟩, hperform, rfl⟩ := Option.map_eq_some_iff.mp h
        obtain ⟨hnodes, htokens, hsession, hperformed, hnext⟩ := perform_cases hx hn hperform
        refine ⟨?_, htokens, hsession, ?_, Nat.le_of_eq hnext.symm⟩
        · -- The tickets play no part in how nodes move.
          cases hnodes with
          | kept hnodes hlevels => exact .kept hnodes hlevels
          | froze i m spec settings made tools hm htask hnone hmade hnodes hlevels =>
            exact .froze i m spec settings made tools hm htask hnone hmade hnodes hlevels
          | closed i m hm hnodes hlevels => exact .closed i m hm hnodes hlevels
          | child y m spec owner plan ledger id hy hop hm hplan htokens hcall hledger hnodes =>
            exact .child y m spec owner plan ledger id hy hop hm hplan htokens hcall hledger hnodes
          | leaf y m call model owner scope ledger id hy hop hm hscope htokens hcall hledger hnodes =>
            exact .leaf y m call model owner scope ledger id hy hop hm hscope htokens hcall hledger
              hnodes
        · intro y hy
          left
          rcases hy with hy | hy
          · exact Or.inl (List.mem_of_mem_eraseP hy)
          · rcases List.mem_append.mp hy with hy | hy
            · exact Or.inr hy
            · split at hy
              · obtain rfl := List.mem_singleton.mp hy
                exact Or.inl hx
              · cases hy
  | settle x charge =>
    obtain ⟨session, hcall, rfl⟩ := Option.map_eq_some_iff.mp h
    exact .of_call hcall (by intro _ _ _ hcontra; cases hcontra)
  | shutdown i =>
    obtain ⟨session, hcall, rfl⟩ := Option.map_eq_some_iff.mp h
    exact .of_call hcall (by intro _ _ _ hcontra; cases hcontra)

end Kyora.Tree
