import Kyora.Shutdown.Invariant
import Kyora.Ledger.Conservation

/-! # Accounts of ended nodes

  A model call belongs to the loop of a running node, so nothing below a node
  that has joined its tasks settles any more: the outcome such a node records
  is what the ledger says then and ever after.
-/

namespace Kyora.Shutdown

open Attempts (Config Call Guard)
open Trace (TraceEvent NodeStart AttemptStart AttemptEnd)

/-! ### Calls belong to running nodes -/

/-- Every call that is not over is the latest one of a running node. -/
def Active (s : State) : Prop :=
  ∀ (k : Nat) (c : Call), s.attempts.calls[k]? = some c → (∃ exit, c.pc = .ended exit) ∨
    ∃ n, s.nodes[c.node]? = some n ∧ n.call = some k ∧ n.pc = .running

/-- A call keeps its node. -/
theorem call_node {cfg : Config} {s u : Attempts.State} {c c' : Call}
    (h : Attempts.Moved cfg s c u c') : c'.node = c.node := by
  cases h with
  | _ => rfl

/-- A call that is over moves no more. -/
theorem call_not_ended {cfg : Config} {s u : Attempts.State} {c c' : Call}
    (h : Attempts.Moved cfg s c u c') {exit : Attempts.Exit} : c.pc ≠ .ended exit := by
  intro hended
  cases h with
  | cancelled hpc =>
    rw [hended] at hpc
    cases hpc
  | unwound hpc =>
    rw [hended] at hpc
    cases hpc
  | resolved _ _ hpc | unresolved _ hpc | acquired hpc _ | reserved _ _ hpc _
  | exhausted _ _ hpc _ | started _ hpc _ | unstarted _ hpc _ _ | unsent hpc | dispatched hpc
  | streamed _ _ _ hpc | settled _ _ _ hpc _ _ | released _ _ hpc | recorded _ _ _ hpc
  | failed _ hpc | gaveUp _ _ hpc _ | retried _ _ _ _ hpc _ _ | reset hpc | unreset hpc
  | woken hpc | droppedGuard _ _ hpc _ _ | droppedPermit _ hpc _ _ | ended _ hpc _ _ =>
    rw [hended] at hpc
    cases hpc

/-- The latest call of an idle node is over. -/
theorem ended_of_idle {s : State} {n : Node} (h : s.idle n = true) {k : Nat} {c : Call}
    (hk : n.call = some k) (hc : s.attempts.calls[k]? = some c) : ∃ exit, c.pc = .ended exit := by
  unfold State.idle at h
  rw [hk, Option.all_some, hc, Option.all_some] at h
  cases hpc : c.pc with
  | ended exit => exact ⟨exit, rfl⟩
  | _ =>
    rw [hpc] at h
    cases h

/-- A running node goes on running with its call, or its call is over. -/
theorem NodeStep.running {s : State} {i : NodeId} {n n' : Node} (h : NodeStep s i n n')
    (hpc : n.pc = .running) : (n'.pc = .running ∧ n'.call = n.call) ∨ s.idle n = true := by
  cases h with
  | same => exact Or.inl ⟨hpc, rfl⟩
  | turn _ => exact Or.inl ⟨hpc, rfl⟩
  | called _ hidle => exact Or.inr hidle
  | finished result _ hidle => exact Or.inr hidle
  | owned keep hopen hkeep => exact Or.inl ⟨hpc, rfl⟩
  | started hno | closed _ hno | joined _ _ _ hno _ | concluded _ _ hno _ | recorded _ hno
  | shut hno =>
    rw [hpc] at hno
    cases hno

/-- How a step changes the calls. -/
theorem calls_of_moved {cfg : Config} {s t : State} (h : Moved cfg s t) :
    t.attempts.calls = s.attempts.calls ∨
    (t.nodes = s.nodes ∧ Attempts.Stored cfg s.attempts t.attempts) ∨
    ∃ i n maxTokens, s.nodes[i]? = some n ∧ n.pc = .running ∧ s.idle n = true ∧
      t.attempts.calls = s.attempts.calls ++ [Call.fresh i maxTokens] ∧
      t.nodes[i]? = some { n with call := some s.attempts.calls.length } := by
  cases h with
  | attempt l a hl ha => exact Or.inr (Or.inl ⟨rfl, stored_of_attempt (Or.inl hl) ha⟩)
  | settle k c result panicked g ledger settlement payload a hc hpc hg hsettle ha =>
    exact Or.inr (Or.inl ⟨rfl, stored_of_attempt (Or.inr ⟨k, rfl⟩) ha⟩)
  | called i n maxTokens hn hpc hidle =>
    refine Or.inr (Or.inr ⟨i, n, maxTokens, hn, hpc, hidle, rfl, ?_⟩)
    exact List.getElem?_set_self (List.getElem?_eq_some_iff.mp hn).1
  | _ => exact Or.inl rfl

theorem active_step {cfg : Config} {s t : State} (h : Active s) (hm : Moved cfg s t) :
    Active t := by
  have hg := grown_of_moved hm
  -- A call of before the step is over or still belongs to its running node.
  have hold : ∀ (k : Nat) (c : Call), s.attempts.calls[k]? = some c →
      (∃ exit, c.pc = .ended exit) ∨
        ∃ n, t.nodes[c.node]? = some n ∧ n.call = some k ∧ n.pc = .running := by
    intro k c hc
    rcases h k c hc with hended | ⟨n, hn, hcall, hpc⟩
    · exact Or.inl hended
    · obtain ⟨n', hn', hstep⟩ := hg.node hn
      rcases hstep.running hpc with ⟨hpc', hcall'⟩ | hidle
      · exact Or.inr ⟨n', hn', hcall'.trans hcall, hpc'⟩
      · exact Or.inl (ended_of_idle hidle hcall hc)
  intro k c' hc'
  rcases calls_of_moved hm with hcalls | ⟨hnodes, j, c, u, d, hc, hmove, heq⟩ |
    ⟨i, n, maxTokens, hn, hpc, hidle, hcalls, hn'⟩
  · exact hold k c' (hcalls ▸ hc')
  · have hcalls : t.attempts.calls = s.attempts.calls.set j d := by
      rw [heq, ← hmove.calls]
      rfl
    rw [hcalls] at hc'
    rcases Pool.getElem?_set_cases hc hc' with ⟨-, hsame⟩ | ⟨rfl, rfl⟩
    · exact hold k c' hsame
    · rcases h j c hc with ⟨exit, hended⟩ | ⟨n, hn, hcall, hpc⟩
      · exact absurd hended (call_not_ended hmove)
      · refine Or.inr ⟨n, ?_, hcall, hpc⟩
        rw [hnodes, call_node hmove]
        exact hn
  · rw [hcalls] at hc'
    rcases Pool.getElem?_snoc hc' with hsame | ⟨rfl, rfl⟩
    · exact hold k c' hsame
    · exact Or.inr ⟨_, hn', rfl, hpc⟩

theorem active_of_reachable {cfg : Config} {model : String} {s : State}
    (h : (system cfg model).Reachable s) : Active s := by
  refine LTS.System.invariant (P := Active) ?_
    (fun _ _ _ hs _ hstep => active_step hs (moved_of_step hstep)) s h
  intro k c hc
  cases hc

/-! ### Settlements below a node -/

/-- The node of a reservation that is held is running. -/
theorem running_of_outstanding {cfg : Config} {model : String} {s : State}
    (h : (system cfg model).Reachable s) {x : Ledger.Issued}
    (hx : x ∈ s.attempts.session.outstanding) :
    ∃ n, s.nodes[x.node]? = some n ∧ n.pc = .running := by
  have hlife := Attempts.invariant_of_reachable (attempts_reachable h)
  obtain ⟨c, hc, hheld⟩ := hlife.held.mem.mp hx
  obtain ⟨g, hguard, rfl⟩ := Option.map_eq_some_iff.mp hheld
  obtain ⟨k, hk⟩ := List.getElem?_of_mem hc
  rcases active_of_reachable h k c hk with ⟨exit, hended⟩ | ⟨n, hn, -, hpc⟩
  · -- A call that is over holds nothing.
    rw [(Attempts.ended_holds hlife hc hended).2] at hguard
    cases hguard
  · exact ⟨n, hn, hpc⟩

/-- The subtree of a node that has joined its tasks runs nothing. -/
theorem Placed.not_running {s : State} (h : Placed s) {a i : NodeId} {m n : Node}
    (hm : s.nodes[a]? = some m) (hlate : m.pc.isLate = true) (hn : s.nodes[i]? = some n)
    (hpc : n.pc = .running) : ¬ Forest.Below s.links a i := by
  intro hbelow
  by_cases hia : i = a
  · subst hia
    obtain rfl := Option.some.inj (hm.symm.trans hn)
    rw [hpc] at hlate
    cases hlate
  · have hshut := h.below_shut hm hlate hn hbelow hia
    rw [hpc] at hshut
    cases hshut

/-- Each step of a run is one call on the ledger, or none, and settles only
    for running nodes. -/
theorem session_of_moved {cfg : Config} {s t : State} (h : Moved cfg s t) :
    t.attempts.session = s.attempts.session ∨
      ∃ l, Ledger.step cfg.limits s.attempts.session l = some t.attempts.session := by
  have hstored : ∀ {a : Attempts.State}, Attempts.Stored cfg s.attempts a →
      a.session = s.attempts.session ∨
        ∃ l, Ledger.step cfg.limits s.attempts.session l = some a.session := by
    rintro a ⟨k, c, u, c', -, hmove, rfl⟩
    rcases hmove.session with heq | ⟨l, -, hl⟩
    · exact Or.inl heq
    · exact Or.inr ⟨l, hl⟩
  cases h with
  | attempt l a hl ha => exact hstored (stored_of_attempt (Or.inl hl) ha)
  | settle k c result panicked g ledger settlement payload a hc hpc hg hsettle ha =>
    exact hstored (stored_of_attempt (Or.inr ⟨k, rfl⟩) ha)
  | admitted i n agent limit model reap ledger id hn hpc hopen hcall =>
    refine Or.inr ⟨.admitChild i agent limit, ?_⟩
    have hcall' : Ledger.admitChild cfg.limits s.attempts.session.ledger i agent limit =
        some (ledger, .ok id) := hcall
    simp only [Ledger.step, hcall', Option.map_some]
  | closed i n result session hn hpc hcall => exact Or.inr ⟨_, hcall⟩
  | shut i n session hn hpc hcall => exact Or.inr ⟨_, hcall⟩
  | _ => exact Or.inl rfl

theorem ledger_reachable {cfg : Config} {model : String} {s : State}
    (h : (system cfg model).Reachable s) :
    (Ledger.sessions cfg.limits).Reachable s.attempts.session :=
  Attempts.session_reachable (attempts_reachable h)

/-- The ledger's account of a node that has joined its tasks is final. -/
theorem usage_late {cfg : Config} {model : String} {s t : State} {l : Label}
    (h : (system cfg model).Reachable s) (hstep : step cfg s l = some t) {a : NodeId} {m : Node}
    (hm : s.nodes[a]? = some m) (hlate : m.pc.isLate = true) :
    Ledger.usage t.ledger a = Ledger.usage s.ledger a := by
  have hplaced := placed_of_reachable h
  rcases session_of_moved (moved_of_step hstep) with heq | ⟨call, hcall⟩
  · unfold State.ledger
    rw [heq]
  · apply Ledger.usage_step (ledger_reachable h) hcall
    · show a < s.ledger.scopes.length
      rw [← hplaced.length]
      exact (List.getElem?_eq_some_iff.mp hm).1
    · intro x charge hcharge hx hbelow
      obtain ⟨n, hn, hpc⟩ := running_of_outstanding h hx
      refine hplaced.not_running hm hlate hn hpc ?_
      rw [hplaced.links]
      exact hbelow

/-! ### Outcomes -/

/-- The turn count an outcome reports: a leaf is one turn. -/
def Node.turnCount (n : Node) : Nat := if n.agent then n.turns else 1

/-- The outcome is the ledger's account of its node, and the node's turns. -/
structure Accounted (s : State) (o : AgentOutcome) (n : Node) : Prop where
  usage : Ledger.usage s.ledger o.node = some (o.usageSelf, o.usageSubtree)
  turns : o.turns = n.turnCount

/-- Outcomes made and recorded are final. -/
structure Final (s : State) : Prop where
  ending : ∀ (i : NodeId) (n : Node) (o : AgentOutcome), s.nodes[i]? = some n →
    n.pc = .ending o → o.node = i ∧ Accounted s o n
  recorded : ∀ o, TraceEvent.nodeEnd o ∈ s.trace →
    ∃ n, s.nodes[o.node]? = some n ∧ n.pc.isEnded = true ∧ Accounted s o n

theorem accounted_outcome {s : State} {i : NodeId} {n : Node} {result : Result}
    {o : AgentOutcome} (h : s.outcome i n result = some o) : o.node = i ∧ Accounted s o n := by
  obtain ⟨usage, husage, rfl⟩ := Option.map_eq_some_iff.mp h
  exact ⟨rfl, husage, rfl⟩

/-- A call writes records of its attempts only. -/
theorem emitted_cases {s : State} {l : Attempts.Label} {e : TraceEvent} (h : e ∈ s.emitted l) :
    (∃ start, e = .attemptStart start) ∨
      ∃ k settled, l = .emitted k ∧ s.ends.lookup k = some settled ∧ e = .attemptEnd settled := by
  unfold State.emitted at h
  split at h
  · next k =>
    split at h
    · cases h
    · split at h
      · exact Or.inl ⟨_, List.mem_singleton.mp h⟩
      · obtain ⟨settled, hsettled, rfl⟩ := List.mem_map.mp h
        exact Or.inr ⟨k, settled, rfl, Option.mem_toList.mp hsettled, rfl⟩
      · cases h
  · cases h

/-- The end records of a step: that of a node that was about to write it. -/
theorem nodeEnd_of_moved {cfg : Config} {s t : State} (h : Moved cfg s t) {o : AgentOutcome}
    (ho : TraceEvent.nodeEnd o ∈ t.trace) : TraceEvent.nodeEnd o ∈ s.trace ∨
      ∃ (i : NodeId) (n : Node), s.nodes[i]? = some n ∧ n.pc = .ending o ∧
        t.nodes[i]? = some { n with pc := .recorded } ∧ t.ledger = s.ledger := by
  have hsnoc : ∀ {e : TraceEvent}, TraceEvent.nodeEnd o ∈ s.trace ++ [e] →
      TraceEvent.nodeEnd o ∈ s.trace ∨ e = .nodeEnd o := by
    intro e he
    rcases List.mem_append.mp he with he | he
    · exact Or.inl he
    · exact Or.inr (List.mem_singleton.mp he).symm
  cases h with
  | attempt l a hl ha =>
    rcases List.mem_append.mp ho with ho | ho
    · exact Or.inl ho
    · rcases emitted_cases ho with ⟨start, hno⟩ | ⟨k, settled, -, -, hno⟩
      · cases hno
      · cases hno
  | note event hevent =>
    rcases hsnoc ho with ho | rfl
    · exact Or.inl ho
    · cases hevent
  | started i n payload hn hpc =>
    rcases hsnoc ho with ho | ho
    · exact Or.inl ho
    · cases ho
  | recorded i n outcome hn hpc =>
    rcases hsnoc ho with ho | ho
    · exact Or.inl ho
    · obtain rfl := TraceEvent.nodeEnd.inj ho
      exact Or.inr ⟨i, n, hn, hpc,
        List.getElem?_set_self (List.getElem?_eq_some_iff.mp hn).1, rfl⟩
  | _ => exact Or.inl ho

theorem final_step {cfg : Config} {model : String} {s t : State} {l : Label}
    (hs : (system cfg model).Reachable s) (h : Final s) (hstep : step cfg s l = some t) :
    Final t := by
  have hm := moved_of_step hstep
  have hg := grown_of_moved hm
  -- An account of a node that has joined its tasks stays what it is.
  have hkeep : ∀ {o : AgentOutcome} {n n' : Node}, s.nodes[o.node]? = some n →
      n.pc.isLate = true → NodeStep s o.node n n' → Accounted s o n → Accounted t o n' := by
    intro o n n' hn hlate hnode haccount
    refine ⟨by rw [usage_late hs hstep hn hlate, haccount.usage], ?_⟩
    have hkeeps := hnode.keeps
    rw [haccount.turns, Node.turnCount, Node.turnCount, hkeeps.agent, (hkeeps.late hlate).2]
  refine ⟨?_, ?_⟩
  · intro i n' o hn' hpc'
    rcases hg.back hn' with ⟨n, hn, hnode⟩ | ⟨-, p, m, agent, model, -, -, -, rfl, -⟩
    · cases hnode with
      | same =>
        obtain ⟨rfl, haccount⟩ := h.ending i n' o hn hpc'
        exact ⟨rfl, hkeep hn (by rw [hpc']; rfl) .same haccount⟩
      | turn hpc =>
        rw [hpc] at hpc'
        cases hpc'
      | called hpc _ =>
        rw [hpc] at hpc'
        cases hpc'
      | owned keep hopen hreaped =>
        obtain ⟨rfl, haccount⟩ := h.ending i n o hn hpc'
        exact ⟨rfl, hkeep hn (by rw [show n.pc = _ from hpc']; rfl) (.owned keep hopen hreaped)
          haccount⟩
      | concluded result outcome hpc houtcome =>
        obtain rfl := Pc.ending.inj hpc'
        obtain ⟨rfl, haccount⟩ := accounted_outcome houtcome
        exact ⟨rfl, hkeep hn (by rw [hpc]; rfl) (.concluded result outcome hpc houtcome) haccount⟩
      | _ => cases hpc'
    · cases hpc'
  · intro o ho
    rcases nodeEnd_of_moved hm ho with hold | ⟨i, n, hn, hpc, hn', hledger⟩
    · obtain ⟨n, hn, hended, haccount⟩ := h.recorded o hold
      obtain ⟨n', hn', hnode⟩ := hg.node hn
      exact ⟨n', hn', hnode.keeps.ended hended,
        hkeep hn (Pc.isLate_of_isEnded hended) hnode haccount⟩
    · obtain ⟨rfl, haccount⟩ := h.ending i n o hn hpc
      exact ⟨_, hn', rfl, by rw [hledger]; exact haccount.usage, haccount.turns⟩

theorem final_of_reachable {cfg : Config} {model : String} {s : State}
    (h : (system cfg model).Reachable s) : Final s := by
  induction h with
  | init =>
    refine ⟨?_, fun o ho => (nomatch ho)⟩
    intro i n o hn hpc
    obtain rfl := List.mem_singleton.mp (List.mem_of_getElem? hn)
    cases hpc
  | step hs _ hstep ih => exact final_step hs ih hstep

end Kyora.Shutdown
