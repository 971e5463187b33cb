import Kyora.Shutdown.Basic

/-! # What one step of a run does

  `Moved` lists the moves of a run with the state each leaves behind;
  `moved_of_step` says that every step is one of them.
-/

namespace Kyora.Shutdown

open Attempts (Config Call Guard)
open Trace (TraceEvent NodeStart AttemptStart AttemptEnd)

/-- The record of a node's start. -/
def Node.startRecord (n : Node) (i : NodeId) (payload : NodeStart) : TraceEvent :=
  .nodeStart { payload with
    node := i
    parent := n.parent
    depth := n.depth
    kind := if n.agent then "agent" else "llm"
    model := n.model }

/-- The moves of a run. -/
inductive Moved (cfg : Config) (s : State) : State → Prop where
  /-- A call on a closed node, or an admission the ledger refuses. -/
  | refused : Moved cfg s s
  | attempt (l : Attempts.Label) (a : Attempts.State) (hl : isMove l = true)
      (ha : Attempts.step cfg s.attempts l = some a) :
      Moved cfg s { s with attempts := a, trace := s.trace ++ s.emitted l }
  | settle (k : Nat) (c : Call) (result : Attempts.Result) (panicked : Bool) (g : Guard)
      (ledger : Ledger.State) (settlement : Ledger.Settlement) (payload : AttemptEnd)
      (a : Attempts.State) (hc : s.attempts.calls[k]? = some c)
      (hpc : c.pc = .finished result panicked) (hg : c.guard = some g)
      (hsettle : Ledger.settle s.ledger g.reservation result.charge = some (ledger, settlement))
      (ha : Attempts.step cfg s.attempts (.settle k) = some a) :
      Moved cfg s { s with
        attempts := a
        ends := (k, attemptEnd c.node g.reservation.id result settlement payload) ::
          s.ends.filter (·.1 != k) }
  | admitted (i : NodeId) (n : Node) (agent : Bool) (limit : Option Nat) (model : String)
      (reap : Nat → Bool) (ledger : Ledger.State) (id : NodeId) (hn : s.nodes[i]? = some n)
      (hpc : n.pc ≠ .admitted) (hopen : n.closed = false)
      (hcall : Ledger.admitChild cfg.limits s.ledger i agent limit = some (ledger, .ok id)) :
      Moved cfg s { s.own i n ⟨some id, false, false⟩ reap with
        attempts := { s.attempts with session := { s.attempts.session with ledger } }
        nodes := (s.own i n ⟨some id, false, false⟩ reap).nodes ++ [newNode i n agent model] }
  | own (i : NodeId) (n : Node) (reap : Nat → Bool) (hn : s.nodes[i]? = some n)
      (hopen : n.closed = false ∨ n.pc = .running) :
      Moved cfg s (s.own i n ⟨none, false, false⟩ reap)
  | note (event : TraceEvent) (h : isNote event = true) :
      Moved cfg s { s with trace := s.trace ++ [event] }
  | taskEnds (k : Nat) (task : Task) (panicked : Bool) (htask : s.tasks[k]? = some task)
      (hmay : s.mayEnd task = true) :
      Moved cfg s { s with tasks := s.tasks.set k { task with ended := true, panicked } }
  | started (i : NodeId) (n : Node) (payload : NodeStart) (hn : s.nodes[i]? = some n)
      (hpc : n.pc = .admitted) :
      Moved cfg s { s.setNode i { n with pc := .running } with
        trace := s.trace ++ [n.startRecord i payload] }
  | turn (i : NodeId) (n : Node) (hn : s.nodes[i]? = some n) (hpc : n.pc = .running) :
      Moved cfg s (s.setNode i { n with turns := n.turns + 1 })
  | called (i : NodeId) (n : Node) (maxTokens : Nat) (hn : s.nodes[i]? = some n)
      (hpc : n.pc = .running) (hidle : s.idle n = true) :
      Moved cfg s ({ s with attempts := { s.attempts with
        calls := s.attempts.calls ++ [Call.fresh i maxTokens] } }.setNode i
          { n with call := some s.attempts.calls.length })
  | finished (i : NodeId) (n : Node) (result : Result) (panicked : Bool)
      (hn : s.nodes[i]? = some n) (hpc : n.pc = .running) (hidle : s.idle n = true) :
      Moved cfg s { s.setNode i { n with pc := .finished result } with
        panicked := s.panicked || panicked }
  | closed (i : NodeId) (n : Node) (result : Result) (session : Ledger.Session)
      (hn : s.nodes[i]? = some n) (hpc : n.pc = .finished result)
      (hcall : Ledger.step cfg.limits s.attempts.session (.closeAdmission i) = some session) :
      Moved cfg s ({ s with attempts := { s.attempts with session } }.setNode i
        { n with pc := .joining n.tasks result, closed := true, tasks := [] })
  | joined (i : NodeId) (n : Node) (k : Nat) (rest : List Nat) (result : Result)
      (hn : s.nodes[i]? = some n) (hpc : n.pc = .joining (k :: rest) result)
      (hended : s.ended k = true) :
      Moved cfg s { s.setNode i { n with pc := .joining rest result } with
        panicked := s.panicked || (s.tasks[k]?).any Task.panicked }
  | concluded (i : NodeId) (n : Node) (result : Result) (outcome : AgentOutcome)
      (hn : s.nodes[i]? = some n) (hpc : n.pc = .joining [] result)
      (houtcome : s.outcome i n result = some outcome) :
      Moved cfg s (s.setNode i { n with pc := .ending outcome })
  | recorded (i : NodeId) (n : Node) (outcome : AgentOutcome) (hn : s.nodes[i]? = some n)
      (hpc : n.pc = .ending outcome) :
      Moved cfg s { s.setNode i { n with pc := .recorded } with
        trace := s.trace ++ [.nodeEnd outcome] }
  | shut (i : NodeId) (n : Node) (session : Ledger.Session) (hn : s.nodes[i]? = some n)
      (hpc : n.pc = .recorded)
      (hcall : Ledger.step cfg.limits s.attempts.session (.shutdown i) = some session) :
      Moved cfg s ({ s with attempts := { s.attempts with session } }.setNode i
        { n with pc := .shut })

theorem onLedger_some {cfg : Config} {s t : State} {l : Ledger.Call}
    (h : s.onLedger cfg l = some t) : ∃ session,
      Ledger.step cfg.limits s.attempts.session l = some session ∧
        t = { s with attempts := { s.attempts with session } } := by
  obtain ⟨a, ha, rfl⟩ := Option.map_eq_some_iff.mp h
  simp only [Attempts.step] at ha
  split at ha
  · obtain ⟨session, hsession, rfl⟩ := Option.map_eq_some_iff.mp ha
    exact ⟨session, hsession, rfl⟩
  · cases ha

/-- A call on a node's context is refused or finds its work open. -/
theorem onWork_cases {s t : State} {i : NodeId} {act : Node → Option State}
    (h : s.onWork i act = some t) : t = s ∨ ∃ n, s.nodes[i]? = some n ∧ n.pc ≠ .admitted ∧
      n.closed = false ∧ act n = some t := by
  unfold State.onWork at h
  split at h
  · cases h
  · next n hn =>
    split at h
    · cases h
    · cases h
    · next hagent hpc =>
      split at h
      · exact Or.inl (Option.some.inj h).symm
      · next hopen => exact Or.inr ⟨n, hn, hpc, Bool.eq_false_iff.mpr hopen, h⟩

theorem moved_of_admitNode {cfg : Config} {s t : State} {i : NodeId} {n : Node} {agent : Bool}
    {limit : Option Nat} {model : String} {reap : Nat → Bool} (hn : s.nodes[i]? = some n)
    (hpc : n.pc ≠ .admitted) (hopen : n.closed = false)
    (h : s.admitNode cfg i n agent limit model reap = some t) : Moved cfg s t := by
  unfold State.admitNode at h
  split at h
  · cases h
  · obtain rfl := Option.some.inj h
    exact .refused
  · next ledger id hcall =>
    obtain rfl := Option.some.inj h
    exact .admitted i n agent limit model reap ledger id hn hpc hopen hcall

theorem moved_of_stepNode {cfg : Config} {s t : State} {i : NodeId} {n : Node} {l : Label}
    (hn : s.nodes[i]? = some n) (h : stepNode cfg s i n l = some t) : Moved cfg s t := by
  cases l with
  | start j payload =>
    simp only [stepNode] at h
    split at h
    · next hpc =>
      obtain rfl := Option.some.inj h
      exact .started i n payload hn hpc
    · cases h
  | turn j =>
    simp only [stepNode] at h
    split at h
    · next hpc =>
      obtain rfl := Option.some.inj h
      exact .turn i n hn hpc
    · cases h
  | call j maxTokens =>
    simp only [stepNode] at h
    split at h
    · next hpc =>
      split at h
      · next hidle =>
        obtain ⟨a, ha, rfl⟩ := Option.map_eq_some_iff.mp h
        obtain rfl := Option.some.inj ha
        exact .called i n maxTokens hn hpc hidle
      · cases h
    · cases h
  | deliver j reap =>
    simp only [stepNode] at h
    split at h
    · next hpc =>
      obtain rfl := Option.some.inj h
      exact .own i n reap hn (Or.inr hpc)
    · cases h
  | finish j result panicked =>
    simp only [stepNode] at h
    split at h
    · next hpc =>
      split at h
      · next hidle =>
        obtain rfl := Option.some.inj h
        exact .finished i n result panicked hn hpc hidle
      · cases h
    · cases h
  | close j =>
    simp only [stepNode] at h
    split at h
    · next result hpc =>
      obtain ⟨u, hu, rfl⟩ := Option.map_eq_some_iff.mp h
      obtain ⟨session, hcall, rfl⟩ := onLedger_some hu
      exact .closed i n result session hn hpc hcall
    · cases h
  | join j =>
    simp only [stepNode] at h
    split at h
    · next k rest result hpc =>
      split at h
      · next hended =>
        obtain rfl := Option.some.inj h
        exact .joined i n k rest result hn hpc hended
      · cases h
    · cases h
  | conclude j =>
    simp only [stepNode] at h
    split at h
    · next result hpc =>
      obtain ⟨outcome, houtcome, rfl⟩ := Option.map_eq_some_iff.mp h
      exact .concluded i n result outcome hn hpc houtcome
    · cases h
  | record j =>
    simp only [stepNode] at h
    split at h
    · next outcome hpc =>
      obtain rfl := Option.some.inj h
      exact .recorded i n outcome hn hpc
    · cases h
  | shutdown j =>
    simp only [stepNode] at h
    split at h
    · next hpc =>
      obtain ⟨u, hu, rfl⟩ := Option.map_eq_some_iff.mp h
      obtain ⟨session, hcall, rfl⟩ := onLedger_some hu
      exact .shut i n session hn hpc hcall
    · cases h
  | _ => cases h

theorem moved_of_step {cfg : Config} {s t : State} {l : Label} (h : step cfg s l = some t) :
    Moved cfg s t := by
  cases l with
  | attempt l =>
    simp only [step] at h
    split at h
    · next hl =>
      obtain ⟨a, ha, rfl⟩ := Option.map_eq_some_iff.mp h
      exact .attempt l a hl ha
    · cases h
  | settle k payload =>
    simp only [step] at h
    split at h
    · cases h
    · next c hc =>
      split at h
      · next result panicked g hpc hg =>
        split at h
        · cases h
        · next ledger settlement hsettle =>
          obtain ⟨a, ha, rfl⟩ := Option.map_eq_some_iff.mp h
          exact .settle k c result panicked g ledger settlement payload a hc hpc hg hsettle ha
      · cases h
  | spawnAgent i limit model reap =>
    rcases onWork_cases h with rfl | ⟨n, hn, hpc, hopen, hact⟩
    · exact .refused
    · exact moved_of_admitNode hn hpc hopen hact
  | llm i model reap =>
    rcases onWork_cases h with rfl | ⟨n, hn, hpc, hopen, hact⟩
    · exact .refused
    · exact moved_of_admitNode hn hpc hopen hact
  | send i reap =>
    rcases onWork_cases h with rfl | ⟨n, hn, hpc, hopen, hact⟩
    · exact .refused
    · obtain rfl := Option.some.inj hact
      exact .own i n reap hn (Or.inl hopen)
  | note event =>
    simp only [step] at h
    split at h
    · next hevent =>
      obtain rfl := Option.some.inj h
      exact .note event hevent
    · cases h
  | taskEnds k panicked =>
    simp only [step] at h
    split at h
    · cases h
    · next task htask =>
      split at h
      · next hmay =>
        obtain rfl := Option.some.inj h
        exact .taskEnds k task panicked htask hmay
      · cases h
  | _ =>
    obtain ⟨n, hn, hstep⟩ := Option.bind_eq_some_iff.mp h
    exact moved_of_stepNode hn hstep

/-- The model calls of a run are those of some execution of calls. -/
theorem attempts_reachable {cfg : Config} {model : String} {s : State}
    (h : (system cfg model).Reachable s) : (Attempts.attempts cfg).Reachable s.attempts := by
  refine LTS.System.reachable_map State.attempts rfl ?_ s h
  intro u l v hstep
  have hforeign : ∀ {call : Ledger.Call} {session : Ledger.Session},
      Attempts.isForeign call = true →
      Ledger.step cfg.limits u.attempts.session call = some session →
      ∃ l', (Attempts.attempts cfg).step u.attempts l' = some { u.attempts with session } := by
    intro call session hcall hsession
    refine ⟨.ledger call, ?_⟩
    show Attempts.step cfg u.attempts (.ledger call) = _
    simp only [Attempts.step, hcall, hsession, if_true, Option.map_some]
  cases moved_of_step hstep with
  | attempt l a hl ha => exact Or.inr ⟨l, ha⟩
  | settle k c result panicked g ledger settlement payload a hc hpc hg hsettle ha =>
    exact Or.inr ⟨.settle k, ha⟩
  | admitted i n agent limit model reap ledger id hn hpc hopen hcall =>
    have hcall' : Ledger.admitChild cfg.limits u.attempts.session.ledger i agent limit =
        some (ledger, .ok id) := hcall
    have hsession : Ledger.step cfg.limits u.attempts.session (.admitChild i agent limit) =
        some { u.attempts.session with ledger } := by
      simp only [Ledger.step, hcall', Option.map_some]
    exact Or.inr (hforeign rfl hsession)
  | called i n maxTokens hn hpc hidle => exact Or.inr ⟨.call i maxTokens, rfl⟩
  | closed i n result session hn hpc hcall => exact Or.inr (hforeign rfl hcall)
  | shut i n session hn hpc hcall => exact Or.inr (hforeign rfl hcall)
  | _ => exact Or.inl rfl

/-- A call that goes on or settles stores that call again. -/
theorem storedAt_of_attempt {cfg : Config} {s t : Attempts.State} {l : Attempts.Label}
    (hl : isMove l = true ∨ ∃ k, l = .settle k) (h : Attempts.step cfg s l = some t) :
    ∃ k, l.callId = some k ∧ Attempts.StoredAt cfg s k t := by
  apply Attempts.stored_of_step h
  · rintro l' rfl
    rcases hl with hl | ⟨k, hl⟩
    · cases hl
    · cases hl
  · rintro node maxTokens rfl
    rcases hl with hl | ⟨k, hl⟩
    · cases hl
    · cases hl

theorem stored_of_attempt {cfg : Config} {s t : Attempts.State} {l : Attempts.Label}
    (hl : isMove l = true ∨ ∃ k, l = .settle k) (h : Attempts.step cfg s l = some t) :
    Attempts.Stored cfg s t := by
  obtain ⟨k, -, hstored⟩ := storedAt_of_attempt hl h
  exact ⟨k, hstored⟩

end Kyora.Shutdown
