import Kyora.Shutdown.Accounts

/-! # Records of starts and ends

  A node writes one record when it starts and one when it ends. A start comes
  after that of the parent; an end comes after the ends of everything below the
  node, and nothing is admitted below a node that has ended.
-/

namespace Kyora.Shutdown

open Attempts (Config)
open Trace (TraceEvent NodeStart)

/-! ### Starts and ends in a trace -/

def isStartOf (i : NodeId) : TraceEvent → Bool
  | .nodeStart start => start.node == i
  | _ => false

def isEndOf (i : NodeId) : TraceEvent → Bool
  | .nodeEnd outcome => outcome.node == i
  | _ => false

/-- A record of the start or the end of some node. -/
def isLife : TraceEvent → Bool
  | .nodeStart _ | .nodeEnd _ => true
  | _ => false

theorem isStartOf_iff {i : NodeId} {e : TraceEvent} :
    isStartOf i e = true ↔ ∃ start, e = .nodeStart start ∧ start.node = i := by
  constructor
  · intro h
    cases e with
    | nodeStart start => exact ⟨start, rfl, eq_of_beq h⟩
    | _ => cases h
  · rintro ⟨start, rfl, rfl⟩
    exact beq_self_eq_true start.node

theorem isEndOf_iff {i : NodeId} {e : TraceEvent} :
    isEndOf i e = true ↔ ∃ outcome, e = .nodeEnd outcome ∧ outcome.node = i := by
  constructor
  · intro h
    cases e with
    | nodeEnd outcome => exact ⟨outcome, rfl, eq_of_beq h⟩
    | _ => cases h
  · rintro ⟨outcome, rfl, rfl⟩
    exact beq_self_eq_true outcome.node

/-- A cut of a list that grew by one element at most is a cut of the list before,
    or is at the new element. -/
theorem split_append {α : Type} {xs es before after : List α} {e : α} (hes : es.length ≤ 1)
    (h : xs ++ es = before ++ e :: after) :
    (∃ rest, xs = before ++ e :: rest) ∨ (before = xs ∧ es = [e]) := by
  rcases List.append_eq_append_iff.mp h with ⟨l, hbefore, hnew⟩ | ⟨l, hxs, hafter⟩
  · cases l with
    | nil =>
      rw [List.append_nil] at hbefore
      rw [List.nil_append] at hnew
      subst hnew
      rw [List.length_cons] at hes
      rw [List.eq_nil_of_length_eq_zero (by omega : after.length = 0)]
      exact Or.inr ⟨hbefore, rfl⟩
    | cons x rest =>
      rw [hnew, List.length_append, List.length_cons, List.length_cons] at hes
      omega
  · cases l with
    | nil =>
      rw [List.append_nil] at hxs
      rw [List.nil_append] at hafter
      subst hafter
      rw [List.length_cons] at hes
      rw [List.eq_nil_of_length_eq_zero (by omega : after.length = 0)]
      exact Or.inr ⟨hxs.symm, rfl⟩
    | cons x rest =>
      obtain ⟨rfl, -⟩ := List.cons.inj hafter
      exact Or.inl ⟨rest, hxs⟩

/-! ### What a step writes -/

/-- The start is recorded. -/
def Pc.isStarted : Pc → Bool
  | .admitted => false
  | _ => true

theorem Pc.isStarted_iff {pc : Pc} : pc.isStarted = true ↔ pc ≠ .admitted := by
  cases pc with
  | admitted => simp [Pc.isStarted]
  | _ => simp [Pc.isStarted]

/-- Which of its records a node has written. -/
def Node.stage (n : Node) : Bool × Bool := (n.pc.isStarted, n.pc.isEnded)

/-- A node that is not there yet has written none. -/
def State.stage (s : State) (i : NodeId) : Bool × Bool :=
  ((s.nodes[i]?).map Node.stage).getD (false, false)

theorem State.stage_eq {s : State} {i : NodeId} {n : Node} (h : s.nodes[i]? = some n) :
    s.stage i = n.stage := by
  rw [State.stage, h, Option.map_some, Option.getD_some]

theorem stage_set {s t : State} {i : NodeId} {n n' : Node} (hn : s.nodes[i]? = some n)
    (hnodes : t.nodes = s.nodes.set i n') (j : NodeId) :
    t.stage j = if i = j then n'.stage else s.stage j := by
  unfold State.stage
  rw [hnodes]
  by_cases hij : i = j
  · subst hij
    rw [List.getElem?_set_self (List.getElem?_eq_some_iff.mp hn).1, if_pos rfl]
    rfl
  · rw [List.getElem?_set_ne hij, if_neg hij]

theorem stage_snoc {s t : State} {n : Node} (hnodes : t.nodes = s.nodes ++ [n])
    (hn : n.stage = (false, false)) (j : NodeId) : t.stage j = s.stage j := by
  unfold State.stage
  rw [hnodes, List.getElem?_append]
  split
  · rfl
  · next hlt =>
    rw [List.getElem?_eq_none (Nat.le_of_not_lt hlt)]
    cases hj : [n][j - s.nodes.length]? with
    | none => rfl
    | some m =>
      rw [List.mem_singleton.mp (List.mem_of_getElem? hj), Option.map_some, Option.getD_some, hn]
      rfl

/-- What a step appends to the trace. -/
inductive Written (s t : State) : List TraceEvent → Prop where
  | other (es : List TraceEvent) (hes : ∀ e ∈ es, isLife e = false)
      (hstage : ∀ i, t.stage i = s.stage i) : Written s t es
  | started (i : NodeId) (n : Node) (payload : NodeStart) (hn : s.nodes[i]? = some n)
      (hpc : n.pc = .admitted) (hnodes : t.nodes = s.nodes.set i { n with pc := .running }) :
      Written s t [n.startRecord i payload]
  | recorded (i : NodeId) (n : Node) (outcome : AgentOutcome) (hn : s.nodes[i]? = some n)
      (hpc : n.pc = .ending outcome)
      (hnodes : t.nodes = s.nodes.set i { n with pc := .recorded }) :
      Written s t [.nodeEnd outcome]

/-- A step that sets one node to one of the same stage writes no life record. -/
theorem written_set {s t : State} {i : NodeId} {n n' : Node} (hn : s.nodes[i]? = some n)
    (hnodes : t.nodes = s.nodes.set i n') (hstage : n'.stage = n.stage) : Written s t [] := by
  refine .other [] (fun e he => (nomatch he)) ?_
  intro j
  rw [stage_set hn hnodes]
  split
  · next hij =>
    subst hij
    rw [hstage, State.stage_eq hn]
  · rfl

theorem emitted_length (s : State) (l : Attempts.Label) : (s.emitted l).length ≤ 1 := by
  unfold State.emitted
  split
  · next k =>
    split
    · exact Nat.zero_le 1
    · split
      · exact Nat.le_refl 1
      · rw [List.length_map]
        cases s.ends.lookup k with
        | none => exact Nat.zero_le 1
        | some settled => exact Nat.le_refl 1
      · exact Nat.zero_le 1
  · exact Nat.zero_le 1

theorem isLife_of_emitted {s : State} {l : Attempts.Label} {e : TraceEvent}
    (h : e ∈ s.emitted l) : isLife e = false := by
  rcases emitted_cases h with ⟨start, rfl⟩ | ⟨k, settled, -, -, rfl⟩
  · rfl
  · rfl

/-- Each step writes one record at most. -/
theorem written_of_moved {cfg : Config} {s t : State} (h : Moved cfg s t) :
    ∃ es, t.trace = s.trace ++ es ∧ es.length ≤ 1 ∧ Written s t es := by
  have hnil : ∀ e ∈ ([] : List TraceEvent), isLife e = false := fun e he => (nomatch he)
  -- A step that writes nothing leaves the trace as it is.
  have hquiet : t.trace = s.trace → Written s t [] →
      ∃ es, t.trace = s.trace ++ es ∧ es.length ≤ 1 ∧ Written s t es := by
    intro htrace hwritten
    exact ⟨[], by rw [htrace, List.append_nil], Nat.zero_le 1, hwritten⟩
  cases h with
  | refused => exact hquiet rfl (.other [] hnil fun _ => rfl)
  | attempt l a hl ha =>
    exact ⟨s.emitted l, rfl, emitted_length s l,
      .other _ (fun e he => isLife_of_emitted he) fun _ => rfl⟩
  | settle k c result panicked g ledger settlement payload a hc hpc hg hsettle ha =>
    exact hquiet rfl (.other [] hnil fun _ => rfl)
  | admitted i n agent limit model reap ledger id hn hpc hopen hcall =>
    refine hquiet rfl (.other [] hnil ?_)
    intro j
    -- The node that owns the new one keeps its stage, and the new one has none.
    have howner := stage_set (t := s.own i n ⟨some id, false, false⟩ reap) hn rfl j
    rw [stage_snoc (s := s.own i n ⟨some id, false, false⟩ reap) rfl rfl j, howner]
    split
    · next hij =>
      subst hij
      rw [State.stage_eq hn]
      rfl
    · rfl
  | own i n reap hn hopen => exact hquiet rfl (written_set hn rfl rfl)
  | note event hevent =>
    refine ⟨[event], rfl, Nat.le_refl 1, .other _ ?_ fun _ => rfl⟩
    intro e he
    rw [List.mem_singleton.mp he]
    cases event with
    | nodeStart start => cases hevent
    | nodeEnd outcome => cases hevent
    | _ => rfl
  | taskEnds k task panicked htask hmay => exact hquiet rfl (.other [] hnil fun _ => rfl)
  | started i n payload hn hpc =>
    exact ⟨_, rfl, Nat.le_refl 1, .started i n payload hn hpc rfl⟩
  | turn i n hn hpc => exact hquiet rfl (written_set hn rfl rfl)
  | called i n maxTokens hn hpc hidle => exact hquiet rfl (written_set hn rfl rfl)
  | finished i n result panicked hn hpc hidle =>
    exact hquiet rfl (written_set hn rfl (by rw [Node.stage, Node.stage, hpc]; rfl))
  | closed i n result session hn hpc hcall =>
    exact hquiet rfl (written_set hn rfl (by rw [Node.stage, Node.stage, hpc]; rfl))
  | joined i n k rest result hn hpc hended =>
    exact hquiet rfl (written_set hn rfl (by rw [Node.stage, Node.stage, hpc]; rfl))
  | concluded i n result outcome hn hpc houtcome =>
    exact hquiet rfl (written_set hn rfl (by rw [Node.stage, Node.stage, hpc]; rfl))
  | recorded i n outcome hn hpc =>
    exact ⟨_, rfl, Nat.le_refl 1, .recorded i n outcome hn hpc rfl⟩
  | shut i n session hn hpc hcall =>
    exact hquiet rfl (written_set hn rfl (by rw [Node.stage, Node.stage, hpc]; rfl))

/-! ### Each record once -/

/-- The trace has as many starts and ends of a node as its stage says. -/
structure Recorded (s : State) : Prop where
  starts : ∀ i, s.trace.countP (isStartOf i) = (s.stage i).1.toNat
  ends : ∀ i, s.trace.countP (isEndOf i) = (s.stage i).2.toNat

theorem countP_life {p : TraceEvent → Bool} (hp : ∀ e, p e = true → isLife e = true)
    {es : List TraceEvent} (hes : ∀ e ∈ es, isLife e = false) : es.countP p = 0 := by
  rw [List.countP_eq_zero]
  intro e he hpe
  have hlife := hp e hpe
  rw [hes e he] at hlife
  cases hlife

theorem isLife_of_start {i : NodeId} {e : TraceEvent} (h : isStartOf i e = true) :
    isLife e = true := by
  obtain ⟨start, rfl, -⟩ := isStartOf_iff.mp h
  rfl

theorem isLife_of_end {i : NodeId} {e : TraceEvent} (h : isEndOf i e = true) :
    isLife e = true := by
  obtain ⟨outcome, rfl, -⟩ := isEndOf_iff.mp h
  rfl

theorem recorded_step {cfg : Config} {s t : State} (hfinal : Final s) (h : Recorded s)
    (hm : Moved cfg s t) : Recorded t := by
  obtain ⟨es, htrace, -, hwritten⟩ := written_of_moved hm
  constructor
  · intro j
    rw [htrace, List.countP_append, h.starts j]
    cases hwritten with
    | other es hes hstage => rw [countP_life (fun _ => isLife_of_start) hes, hstage, Nat.add_zero]
    | started i n payload hn hpc hnodes =>
      rw [stage_set hn hnodes, List.countP_singleton]
      by_cases hij : i = j
      · subst hij
        have heq : isStartOf i (n.startRecord i payload) = true := beq_self_eq_true i
        rw [State.stage_eq hn, Node.stage, hpc, heq, if_pos rfl, if_pos rfl]
        rfl
      · have hne : isStartOf j (n.startRecord i payload) = false := beq_false_of_ne hij
        rw [hne, if_neg hij]
        rfl
    | recorded i n outcome hn hpc hnodes =>
      rw [stage_set hn hnodes]
      split
      · next hij =>
        subst hij
        rw [State.stage_eq hn, Node.stage, hpc]
        rfl
      · rfl
  · intro j
    rw [htrace, List.countP_append, h.ends j]
    cases hwritten with
    | other es hes hstage => rw [countP_life (fun _ => isLife_of_end) hes, hstage, Nat.add_zero]
    | started i n payload hn hpc hnodes =>
      rw [stage_set hn hnodes]
      split
      · next hij =>
        subst hij
        rw [State.stage_eq hn, Node.stage, hpc]
        rfl
      · rfl
    | recorded i n outcome hn hpc hnodes =>
      obtain ⟨rfl, -⟩ := hfinal.ending i n outcome hn hpc
      rw [stage_set hn hnodes, List.countP_singleton]
      by_cases hij : outcome.node = j
      · subst hij
        have heq : isEndOf outcome.node (.nodeEnd outcome) = true :=
          beq_self_eq_true outcome.node
        rw [State.stage_eq hn, Node.stage, hpc, heq, if_pos rfl, if_pos rfl]
        rfl
      · have hne : isEndOf j (.nodeEnd outcome) = false := beq_false_of_ne hij
        rw [hne, if_neg hij]
        rfl

theorem recorded_init (cfg : Config) (model : String) : Recorded (system cfg model).init := by
  have hstage : ∀ i, (system cfg model).init.stage i = (false, false) := by
    intro i
    cases i with
    | zero => rfl
    | succ i => rfl
  constructor
  · intro i
    rw [hstage]
    rfl
  · intro i
    rw [hstage]
    rfl

theorem recorded_of_reachable {cfg : Config} {model : String} {s : State}
    (h : (system cfg model).Reachable s) : Recorded s :=
  LTS.System.invariant_with (fun _ hs => final_of_reachable hs) (recorded_init cfg model)
    (fun _ _ _ hf _ hs _ hstep => recorded_step hf hs (moved_of_step hstep)) s h

/-- A node that has started has its start in the trace. -/
theorem Recorded.mem_start {s : State} (h : Recorded s) {i : NodeId} {n : Node}
    (hn : s.nodes[i]? = some n) (hpc : n.pc ≠ .admitted) :
    ∃ start, TraceEvent.nodeStart start ∈ s.trace ∧ start.node = i := by
  have hcount := h.starts i
  rw [State.stage_eq hn, Node.stage, Pc.isStarted_iff.mpr hpc] at hcount
  obtain ⟨e, he, hstart⟩ := List.countP_pos_iff.mp (by rw [hcount]; exact Nat.one_pos)
  obtain ⟨start, rfl, hnode⟩ := isStartOf_iff.mp hstart
  exact ⟨start, he, hnode⟩

theorem Recorded.mem_end {s : State} (h : Recorded s) {i : NodeId} {n : Node}
    (hn : s.nodes[i]? = some n) (hended : n.pc.isEnded = true) :
    ∃ outcome, TraceEvent.nodeEnd outcome ∈ s.trace ∧ outcome.node = i := by
  have hcount := h.ends i
  rw [State.stage_eq hn, Node.stage, hended] at hcount
  obtain ⟨e, he, hend⟩ := List.countP_pos_iff.mp (by rw [hcount]; exact Nat.one_pos)
  obtain ⟨outcome, rfl, hnode⟩ := isEndOf_iff.mp hend
  exact ⟨outcome, he, hnode⟩

/-! ### Order -/

/-- Links of known nodes stay. -/
theorem Grown.links {cfg : Config} {s t : State} (h : Grown cfg s t) {i : NodeId}
    {p : Option NodeId} (hi : s.links i = some p) : t.links i = some p := by
  obtain ⟨n, hn, rfl⟩ := Option.map_eq_some_iff.mp hi
  obtain ⟨n', hn', hstep⟩ := h.node hn
  unfold State.links
  rw [hn', Option.map_some, hstep.keeps.parent]

/-- Nothing is admitted below a node that has joined its tasks. -/
theorem Placed.below_back {cfg : Config} {s t : State} (h : Placed s) (hg : Grown cfg s t)
    {a i : NodeId} {m : Node} (hm : s.nodes[a]? = some m) (hlate : m.pc.isLate = true)
    (hbelow : Forest.Below t.links a i) : Forest.Below s.links a i := by
  induction hbelow using Relation.ReflTransGen.head_induction_on with
  | refl => exact Forest.Below.refl a
  | @head i c hp hrest ih =>
    obtain ⟨n', hn', hparent⟩ := Option.map_eq_some_iff.mp hp
    rcases hg.back hn' with ⟨n, hn, hstep⟩ |
      ⟨-, p, n, agent, model, hn, -, hopen, rfl, -⟩
    · refine Relation.ReflTransGen.head ?_ ih
      unfold Forest.IsParent State.links
      rw [hn, Option.map_some, ← hstep.keeps.parent, hparent]
    · -- A new node is below an open one, and all that is below `a` is closed.
      exfalso
      obtain rfl := Option.some.inj hparent
      have hlate' : n.pc.isLate = true := by
        by_cases hpa : p = a
        · subst hpa
          obtain rfl := Option.some.inj (hm.symm.trans hn)
          exact hlate
        · rw [h.below_shut hm hlate hn ih hpa]
          rfl
      rw [(h.node p n hn).closed, Pc.isClosed_of_isLate hlate'] at hopen
      cases hopen

/-- The order of the records of starts and ends. -/
structure InOrder (s : State) : Prop where
  /-- A start names the parent of its node and comes after the parent's start. -/
  starts : ∀ (before : List TraceEvent) (start : NodeStart) (after : List TraceEvent),
    s.trace = before ++ .nodeStart start :: after → s.links start.node = some start.parent ∧
      ∀ p, start.parent = some p → ∃ above, .nodeStart above ∈ before ∧ above.node = p
  /-- An end comes after the start and after the ends of everything below. -/
  ends : ∀ (before : List TraceEvent) (outcome : AgentOutcome) (after : List TraceEvent),
    s.trace = before ++ .nodeEnd outcome :: after →
      (∃ start, .nodeStart start ∈ before ∧ start.node = outcome.node) ∧
      ∀ i, Forest.Below s.links outcome.node i → i ≠ outcome.node →
        ∃ below, .nodeEnd below ∈ before ∧ below.node = i

/-- Everything below a node that is about to record its end has recorded its own. -/
theorem ends_below {s : State} (hplaced : Placed s) (hrecorded : Recorded s) {a i : NodeId}
    {m : Node} (hm : s.nodes[a]? = some m) (hlate : m.pc.isLate = true)
    (hbelow : Forest.Below s.links a i) (hne : i ≠ a) :
    ∃ outcome, TraceEvent.nodeEnd outcome ∈ s.trace ∧ outcome.node = i := by
  rcases Forest.below_iff.mp hbelow with rfl | ⟨p, hp, -⟩
  · exact absurd rfl hne
  · obtain ⟨n, hn, -⟩ := Option.map_eq_some_iff.mp hp
    have hshut := hplaced.below_shut hm hlate hn hbelow hne
    exact hrecorded.mem_end hn (by rw [hshut]; rfl)

theorem inOrder_step {cfg : Config} {model : String} {s t : State} {l : Label}
    (hs : (system cfg model).Reachable s) (h : InOrder s) (hstep : step cfg s l = some t) :
    InOrder t := by
  have hm := moved_of_step hstep
  have hg := grown_of_moved hm
  have hplaced := placed_of_reachable hs
  have hrecorded := recorded_of_reachable hs
  have hfinal := final_of_reachable hs
  obtain ⟨es, htrace, hlen, hwritten⟩ := written_of_moved hm
  constructor
  · intro before start after heq
    rw [htrace] at heq
    rcases split_append hlen heq with ⟨rest, hold⟩ | ⟨rfl, rfl⟩
    · obtain ⟨hlinks, hparent⟩ := h.starts before start rest hold
      exact ⟨hg.links hlinks, hparent⟩
    · cases hwritten with
      | other _ hes _ => cases hes _ (List.mem_singleton.mpr rfl)
      | started i n payload hn hpc hnodes =>
        refine ⟨hg.links ?_, ?_⟩
        · show (s.nodes[i]?).map Node.parent = some n.parent
          rw [hn, Option.map_some]
        · intro p hp
          obtain ⟨m, _, _, hparent, hstarted, -⟩ := hplaced.child i p n hn hp
          exact hrecorded.mem_start hparent hstarted
  · intro before outcome after heq
    rw [htrace] at heq
    rcases split_append hlen heq with ⟨rest, hold⟩ | ⟨rfl, rfl⟩
    · obtain ⟨hstart, hbelow⟩ := h.ends before outcome rest hold
      refine ⟨hstart, ?_⟩
      intro i hi hne
      obtain ⟨n, hn, hended, -⟩ := hfinal.recorded outcome
        (by rw [hold]; exact List.mem_append_right _ List.mem_cons_self)
      exact hbelow i (hplaced.below_back hg hn (Pc.isLate_of_isEnded hended) hi) hne
    · cases hwritten with
      | other _ hes _ => cases hes _ (List.mem_singleton.mpr rfl)
      | recorded i n _ hn hpc hnodes =>
        obtain ⟨rfl, -⟩ := hfinal.ending i n outcome hn hpc
        have hlate : n.pc.isLate = true := by
          rw [hpc]
          rfl
        refine ⟨hrecorded.mem_start hn (by rw [hpc]; exact fun hno => (nomatch hno)), ?_⟩
        intro j hj hne
        exact ends_below hplaced hrecorded hn hlate (hplaced.below_back hg hn hlate hj) hne

theorem inOrder_of_reachable {cfg : Config} {model : String} {s : State}
    (h : (system cfg model).Reachable s) : InOrder s := by
  induction h with
  | init =>
    constructor
    · intro before start after heq
      exact absurd heq.symm (List.append_ne_nil_of_right_ne_nil _ (List.cons_ne_nil _ _))
    · intro before outcome after heq
      exact absurd heq.symm (List.append_ne_nil_of_right_ne_nil _ (List.cons_ne_nil _ _))
  | step hs _ hstep ih => exact inOrder_step hs ih hstep

end Kyora.Shutdown
