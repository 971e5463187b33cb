import Kyora.Shutdown.Records

/-! # Ordered shutdown

  The end of a node comes last in its subtree: after every task it owned, after
  the ends of all nodes below, and after the last reservation any of them made.
  When the root is shut down nothing is left alive or unsettled.
-/

namespace Kyora.Shutdown

open Attempts (Config Call)
open Trace (TraceEvent NodeStart)

/-! ### Reservations -/

/-- A step reserves for a running node, or not at all. -/
theorem obtained_of_moved {cfg : Config} {s t : State} (h : Active s) (hm : Moved cfg s t) :
    t.attempts.obtained = s.attempts.obtained ∨
      ∃ (x : Ledger.Issued) (n : Node), t.attempts.obtained = s.attempts.obtained ++ [x] ∧
        s.nodes[x.node]? = some n ∧ n.pc = .running := by
  have hstored : ∀ {a : Attempts.State}, Attempts.Stored cfg s.attempts a →
      a.obtained = s.attempts.obtained ∨
        ∃ (x : Ledger.Issued) (n : Node), a.obtained = s.attempts.obtained ++ [x] ∧
          s.nodes[x.node]? = some n ∧ n.pc = .running := by
    rintro a ⟨k, c, u, c', hc, hmove, rfl⟩
    rcases hmove.obtained with heq | ⟨r, hpc, heq⟩
    · exact Or.inl heq
    · rcases h k c hc with ⟨exit, hended⟩ | ⟨n, hn, -, hrunning⟩
      · rw [hpc] at hended
        cases hended
      · exact Or.inr ⟨⟨c.node, r⟩, n, heq, hn, hrunning⟩
  cases hm with
  | attempt l a hl ha => exact hstored (stored_of_attempt (Or.inl hl) ha)
  | settle k c result panicked g ledger settlement payload a hc hpc hg hsettle ha =>
    exact hstored (stored_of_attempt (Or.inr ⟨k, rfl⟩) ha)
  | _ => exact Or.inl rfl

/-- In every run from a state where a node has joined its tasks, nothing below
    that node reserves any more. -/
theorem obtained_late {cfg : Config} {model : String} {s : State}
    (hs : (system cfg model).Reachable s) {a : NodeId} {m : Node} (hm : s.nodes[a]? = some m)
    (hlate : m.pc.isLate = true) {ls : List Label} {t : State}
    (hrun : (system cfg model).run s ls = some t) :
    ∀ x ∈ t.attempts.obtained, Forest.Below t.links a x.node → x ∈ s.attempts.obtained := by
  have hinv := (system cfg model).run_invariant
    (P := fun u => (system cfg model).Reachable u ∧
      (∃ n, u.nodes[a]? = some n ∧ n.pc.isLate = true) ∧
      ∀ x ∈ u.attempts.obtained, Forest.Below u.links a x.node → x ∈ s.attempts.obtained)
    ?_ ⟨hs, ⟨m, hm, hlate⟩, fun x hx _ => hx⟩ hrun
  · exact hinv.2.2
  rintro u l v ⟨hu, ⟨n, hn, hnlate⟩, hold⟩ hstep
  have hmoved := moved_of_step hstep
  have hg := grown_of_moved hmoved
  have hplaced := placed_of_reachable hu
  obtain ⟨n', hn', hnode⟩ := hg.node hn
  refine ⟨hu.next hstep, ⟨n', hn', (hnode.keeps.late hnlate).1⟩, ?_⟩
  intro x hx hbelow
  have hback := hplaced.below_back hg hn hnlate hbelow
  rcases obtained_of_moved (active_of_reachable hu) hmoved with heq | ⟨y, r, heq, hr, hrunning⟩
  · exact hold x (heq ▸ hx) hback
  · rw [heq] at hx
    rcases List.mem_append.mp hx with hx | hx
    · exact hold x hx hback
    · -- The new reservation is for a running node, and none is below `a`.
      obtain rfl := List.mem_singleton.mp hx
      exact absurd hback (hplaced.not_running hn hnlate hr hrunning)

/-! ### Scopes -/

/-- A node is shut down by a call on the ledger. -/
theorem shut_of_moved {cfg : Config} {s t : State} (h : Moved cfg s t) {i : NodeId} {n' : Node}
    (hn' : t.nodes[i]? = some n') (hpc' : n'.pc = .shut) :
    (∃ n, s.nodes[i]? = some n ∧ n.pc = .shut) ∨
      Ledger.step cfg.limits s.attempts.session (.shutdown i) = some t.attempts.session := by
  -- A node that is set to one that is not shut down was so before.
  have hset : ∀ {j : NodeId} {m m' : Node}, s.nodes[j]? = some m →
      (s.nodes.set j m')[i]? = some n' → (m'.pc = .shut → m.pc = .shut) →
      ∃ n, s.nodes[i]? = some n ∧ n.pc = .shut := by
    intro j m m' hm hi hkeep
    rcases Pool.getElem?_set_cases hm hi with ⟨-, hold⟩ | ⟨rfl, rfl⟩
    · exact ⟨n', hold, hpc'⟩
    · exact ⟨m, hm, hkeep hpc'⟩
  cases h with
  | admitted j n agent limit model reap ledger id hn hpc hopen hcall =>
    left
    rcases Pool.getElem?_snoc hn' with hold | ⟨-, rfl⟩
    · exact hset hn hold fun h => h
    · cases hpc'
  | own j n reap hn hopen => exact Or.inl (hset hn hn' fun h => h)
  | started j n payload hn hpc => exact Or.inl (hset hn hn' fun h => nomatch h)
  | turn j n hn hpc => exact Or.inl (hset hn hn' fun h => h)
  | called j n maxTokens hn hpc hidle => exact Or.inl (hset hn hn' fun h => h)
  | finished j n result panicked hn hpc hidle => exact Or.inl (hset hn hn' fun h => nomatch h)
  | closed j n result session hn hpc hcall => exact Or.inl (hset hn hn' fun h => nomatch h)
  | joined j n k rest result hn hpc hended => exact Or.inl (hset hn hn' fun h => nomatch h)
  | concluded j n result outcome hn hpc houtcome =>
    exact Or.inl (hset hn hn' fun h => nomatch h)
  | recorded j n outcome hn hpc => exact Or.inl (hset hn hn' fun h => nomatch h)
  | shut j n session hn hpc hcall =>
    by_cases hij : j = i
    · subst hij
      exact Or.inr hcall
    · left
      refine ⟨n', ?_, hpc'⟩
      rw [← hn']
      exact (List.getElem?_set_ne hij).symm
  | _ => exact Or.inl ⟨n', hn', hpc'⟩

/-- The scope of a node that is shut down is not alive. -/
def Dead (s : State) : Prop :=
  ∀ (i : NodeId) (n : Node), s.nodes[i]? = some n → n.pc = .shut →
    ∃ scope, s.ledger.scopes[i]? = some scope ∧ scope.alive = false

theorem dead_step {cfg : Config} {s t : State} (h : Dead s) (hm : Moved cfg s t) : Dead t := by
  intro i n' hn' hpc'
  rcases shut_of_moved hm hn' hpc' with ⟨n, hn, hpc⟩ | hcall
  · obtain ⟨scope, hscope, hdead⟩ := h i n hn hpc
    rcases session_of_moved hm with heq | ⟨l, hl⟩
    · refine ⟨scope, ?_, hdead⟩
      unfold State.ledger
      rw [heq]
      exact hscope
    · exact (Ledger.shifts_of_step hl).dead hscope hdead
  · obtain ⟨ledger, hledger, hsession⟩ := Option.map_eq_some_iff.mp hcall
    have hl : t.ledger = ledger := by
      unfold State.ledger
      rw [← hsession]
    rw [hl]
    obtain ⟨scope, hscope, ⟨hdead, rfl⟩ | ⟨-, hscopes, -⟩⟩ := Ledger.shutdown_cases hledger
    · exact ⟨scope, hscope, hdead⟩
    · refine ⟨{ scope with alive := false }, ?_, rfl⟩
      rw [hscopes, List.getElem?_set_self (List.getElem?_eq_some_iff.mp hscope).1]

theorem dead_of_reachable {cfg : Config} {model : String} {s : State}
    (h : (system cfg model).Reachable s) : Dead s := by
  refine LTS.System.invariant (P := Dead) ?_
    (fun _ _ _ hs _ hstep => dead_step hs (moved_of_step hstep)) s h
  intro i n hn hpc
  obtain rfl := List.mem_singleton.mp (List.mem_of_getElem? hn)
  cases hpc

/-! ### Owned work -/

/-- No task is added to work that is closed. -/
theorem NodeStep.closed_owned {s : State} {i : NodeId} {n n' : Node} (hok : NodeOk s n)
    (h : NodeStep s i n n') (hclosed : n.closed = true) :
    n'.closed = true ∧ n'.owned = n.owned := by
  cases h with
  | closed result hpc => exact ⟨rfl, rfl⟩
  | owned keep hopen hkeep =>
    exfalso
    rcases hopen with hopen | hpc
    · rw [hclosed] at hopen
      cases hopen
    · -- A running node has its work open.
      rw [hok.closed, hpc] at hclosed
      cases hclosed
  | _ => exact ⟨hclosed, rfl⟩

theorem Pc.waiting_of_isLate {pc : Pc} (h : pc.isLate = true) : pc.waiting = [] := by
  cases pc with
  | joining tasks result =>
    cases tasks with
    | nil => rfl
    | cons k rest => cases h
  | _ => rfl

/-- A node that writes its end has joined or reaped every task it ever owned. -/
structure Drained (s : State) (n : Node) : Prop where
  closed : n.closed = true
  tasks : n.tasks = []
  waiting : n.pc.waiting = []
  ended : ∀ k ∈ n.owned, s.ended k = true

theorem NodeOk.drained_of_late {s : State} {n : Node} (h : NodeOk s n)
    (hlate : n.pc.isLate = true) : Drained s n := by
  have hclosed := Pc.isClosed_of_isLate hlate
  exact ⟨by rw [h.closed, hclosed], h.drained hclosed, Pc.waiting_of_isLate hlate,
    h.all_ended hlate⟩

/-! ### The end of the run -/

/-- The task of the root, and with it the run, is over. -/
def State.Over (s : State) : Prop := ∃ n, s.nodes[0]? = some n ∧ n.pc = .shut

/-- Once the run is over, all nodes are shut down. -/
theorem State.Over.shut {cfg : Config} {model : String} {s : State} (h : s.Over)
    (hs : (system cfg model).Reachable s) {i : NodeId} {n : Node} (hn : s.nodes[i]? = some n) :
    n.pc = .shut := by
  obtain ⟨root, hroot, hpc⟩ := h
  have hplaced := placed_of_reachable hs
  by_cases hi : i = 0
  · subst hi
    obtain rfl := Option.some.inj (hroot.symm.trans hn)
    exact hpc
  · have hconserved := Ledger.ledger_conservation cfg.limits (ledger_reachable hs)
    have hlt : i < s.ledger.scopes.length := by
      rw [← hplaced.length]
      exact (List.getElem?_eq_some_iff.mp hn).1
    obtain ⟨ids, hids, hlast⟩ := hconserved.walk i hlt
    have hbelow : Forest.Below s.links 0 i := by
      rw [hplaced.links]
      exact (Ledger.mem_path hids 0).mp (List.mem_of_getLast? hlast)
    exact hplaced.below_shut hroot (by rw [hpc]; rfl) hn hbelow hi

/-- What the run leaves behind. -/
structure Returned (s : State) : Prop where
  /-- Every admitted node has its end in the trace, once. -/
  ends : ∀ i < s.ledger.scopes.length, s.trace.countP (isEndOf i) = 1
  scopes : ∀ scope ∈ s.ledger.scopes, scope.alive = false
  live : s.ledger.live = 0
  unsettled : s.attempts.session.outstanding = [] ∧ s.ledger.attempts = []
  /-- The root reports what all nodes used themselves. -/
  usage : ∃ root, TraceEvent.nodeEnd root ∈ s.trace ∧ root.node = 0 ∧
    root.usageSubtree = (s.ledger.scopes.map Ledger.Scope.own).sum

theorem returned {cfg : Config} {model : String} {fits : Nat → Bool}
    (hlimits : cfg.limits.validate fits = .ok ()) {s : State}
    (hs : (system cfg model).Reachable s) (h : s.Over) : Returned s := by
  have hplaced := placed_of_reachable hs
  have hrecorded := recorded_of_reachable hs
  have hledger := ledger_reachable hs
  have hconserved := Ledger.ledger_conservation cfg.limits hledger
  have hnode : ∀ i < s.ledger.scopes.length, ∃ n, s.nodes[i]? = some n ∧ n.pc = .shut := by
    intro i hi
    rw [← hplaced.length] at hi
    exact ⟨_, List.getElem?_eq_getElem hi, h.shut hs (List.getElem?_eq_getElem hi)⟩
  have hscopes : ∀ scope ∈ s.ledger.scopes, scope.alive = false := by
    intro scope hmem
    obtain ⟨i, hi⟩ := List.getElem?_of_mem hmem
    obtain ⟨n, hn, hpc⟩ := hnode i (List.getElem?_eq_some_iff.mp hi).1
    obtain ⟨scope', hscope, hdead⟩ := dead_of_reachable hs i n hn hpc
    obtain rfl := Option.some.inj (hscope.symm.trans hi)
    exact hdead
  have hunsettled : s.attempts.session.outstanding = [] := by
    apply List.eq_nil_iff_forall_not_mem.mpr
    intro x hx
    -- The node of an unsettled attempt would still be running.
    obtain ⟨n, hn, hrunning⟩ := running_of_outstanding hs hx
    rw [h.shut hs hn] at hrunning
    cases hrunning
  refine ⟨?_, hscopes, ?_, ⟨hunsettled, ?_⟩, ?_⟩
  · intro i hi
    obtain ⟨n, hn, hpc⟩ := hnode i hi
    rw [hrecorded.ends i, State.stage_eq hn, Node.stage, hpc]
    rfl
  · have hlive : s.ledger.live = s.ledger.scopes.countP Ledger.Scope.lives :=
      (Ledger.tallied_of_reachable hlimits hledger).live
    rw [hlive]
    apply List.countP_eq_zero.mpr
    intro scope hmem
    rw [Ledger.Scope.lives, show scope.alive = false from hscopes scope hmem, Bool.and_false]
    exact Bool.false_ne_true
  · show s.attempts.session.ledger.attempts = []
    rw [hconserved.attempts, hunsettled, List.map_nil]
  · obtain ⟨root, hroot, hpc⟩ := h
    obtain ⟨outcome, hmem, hzero⟩ := hrecorded.mem_end hroot (by rw [hpc]; rfl)
    refine ⟨outcome, hmem, hzero, ?_⟩
    obtain ⟨n, -, -, haccount⟩ := (final_of_reachable hs).recorded outcome hmem
    have husage := haccount.usage
    rw [hzero] at husage
    obtain ⟨scope, hscope, hpair⟩ := Option.map_eq_some_iff.mp husage
    exact (congrArg Prod.snd hpair).symm.trans (Ledger.usage_root hledger hscope)

/-! ### Ordered shutdown -/

/-- What every state of every run satisfies. -/
structure OrderedShutdown (cfg : Config) (model : String) (s : State) : Prop where
  /-- The nodes are those the ledger has admitted. -/
  admitted : s.nodes.length = s.ledger.scopes.length
  once : ∀ i, s.trace.countP (isEndOf i) ≤ 1
  /-- The end of a node comes after the end of every node in its subtree. -/
  below : ∀ (before : List TraceEvent) (outcome : AgentOutcome) (after : List TraceEvent),
    s.trace = before ++ .nodeEnd outcome :: after →
    ∀ i, Forest.Below s.ledger.links outcome.node i → i ≠ outcome.node →
      ∃ below, .nodeEnd below ∈ before ∧ below.node = i
  /-- No task is added to work that is closed. -/
  closed : ∀ {l : Label} {t : State}, step cfg s l = some t → ∀ {i : NodeId} {n : Node},
    s.nodes[i]? = some n → n.closed = true →
    ∃ n', t.nodes[i]? = some n' ∧ n'.closed = true ∧ n'.owned = n.owned
  /-- A node's end is written when every task it ever owned was joined or reaped. -/
  joined : ∀ {l : Label} {t : State} {outcome : AgentOutcome}, step cfg s l = some t →
    t.trace = s.trace ++ [.nodeEnd outcome] →
    ∃ n, s.nodes[outcome.node]? = some n ∧ Drained s n
  /-- After the end of a node nothing is reserved in its subtree. -/
  reserved : ∀ {outcome : AgentOutcome}, .nodeEnd outcome ∈ s.trace →
    ∀ {ls : List Label} {t : State}, (system cfg model).run s ls = some t →
    ∀ x ∈ t.attempts.obtained, Forest.Below t.ledger.links outcome.node x.node →
      x ∈ s.attempts.obtained
  returned : s.Over → Returned s

/-- The shutdown of every run is ordered. -/
theorem ordered_shutdown (cfg : Config) (model : String) {fits : Nat → Bool}
    (hlimits : cfg.limits.validate fits = .ok ()) {s : State}
    (hs : (system cfg model).Reachable s) : OrderedShutdown cfg model s := by
  have hplaced := placed_of_reachable hs
  have hrecorded := recorded_of_reachable hs
  have hfinal := final_of_reachable hs
  refine ⟨hplaced.length, ?_, ?_, ?_, ?_, ?_, returned hlimits hs⟩
  · intro i
    rw [hrecorded.ends i]
    exact Bool.toNat_le _
  · intro before outcome after heq i hbelow hne
    rw [← hplaced.links] at hbelow
    exact ((inOrder_of_reachable hs).ends before outcome after heq).2 i hbelow hne
  · intro l t hstep i n hn hclosed
    obtain ⟨n', hn', hnode⟩ := (grown_of_moved (moved_of_step hstep)).node hn
    exact ⟨n', hn', hnode.closed_owned (hplaced.node i n hn) hclosed⟩
  · intro l t outcome hstep htrace
    obtain ⟨es, htrace', hlen, hwritten⟩ := written_of_moved (moved_of_step hstep)
    have hes : es = [.nodeEnd outcome] := List.append_cancel_left (htrace'.symm.trans htrace)
    subst hes
    cases hwritten with
    | other _ hes _ => cases hes _ (List.mem_singleton.mpr rfl)
    | recorded i n _ hn hpc hnodes =>
      obtain ⟨rfl, -⟩ := hfinal.ending i n outcome hn hpc
      exact ⟨n, hn, (hplaced.node _ n hn).drained_of_late (by rw [hpc]; rfl)⟩
  · intro outcome hmem ls t hrun x hx hbelow
    obtain ⟨n, hn, hended, -⟩ := hfinal.recorded outcome hmem
    rw [← (placed_of_reachable (hs.run hrun)).links] at hbelow
    exact obtained_late hs hn (Pc.isLate_of_isEnded hended) hrun x hx hbelow

/-- The root calls its model and spawns a child and a leaf; the leaf panics, the
    child sends a message, and the root's attempt is charged for its tokens. -/
def shutdownLabels (start : NodeStart) (payload : Trace.AttemptEnd) : List Label :=
  [.start 0 start, .call 0 32000, .attempt (.resolved 0 none 100), .attempt (.acquire 0),
    .attempt (.reserve 0), .attempt (.emitted 0), .attempt (.dispatch 0),
    .spawnAgent 0 none "sub" fun _ => true, .llm 0 "leaf" fun _ => true, .start 2 start,
    .attempt (.stream 0 (.response ⟨100, 20, 0, 0⟩) false), .settle 0 payload,
    .attempt (.release 0), .attempt (.emitted 0), .attempt (.leave 0), .turn 0,
    .finish 2 none true, .close 2, .conclude 2, .record 2, .shutdown 2, .start 1 start,
    .taskEnds 1 false, .send 1 fun _ => true, .finish 0 (some (.completed, .text "done")) false,
    .close 0, .spawnAgent 0 none "late" fun _ => true, .finish 1 none false, .taskEnds 2 false,
    .close 1, .join 1, .conclude 1, .record 1, .shutdown 1, .taskEnds 0 false, .join 0, .join 0,
    .conclude 0, .record 0, .shutdown 0]

def sampleStart : NodeStart where
  node := 0
  parent := none
  depth := 0
  kind := ""
  name := "sample"
  model := ""
  originCell := none
  system := none
  tools := []
  limits := .default
  prompt := none

def sampleEnd : Trace.AttemptEnd where
  node := 0
  attempt := 0
  requestId := none
  outcome := ""
  charged := 0
  excess := 0
  usage := none
  stopReason := some .endTurn
  ms := 12

/-- Node, status and subtree total of an end. -/
def endOf : TraceEvent → Option (NodeId × Status × Nat)
  | .nodeEnd outcome => some (outcome.node, outcome.status, outcome.usageSubtree.total)
  | _ => none

def Pc.isShut : Pc → Bool
  | .shut => true
  | _ => false

theorem Pc.eq_shut {pc : Pc} (h : pc.isShut = true) : pc = .shut := by
  cases pc with
  | shut => rfl
  | _ => cases h

theorem ordered_shutdown_leaf_panic : ∃ s,
    (system ⟨.default, .default⟩ "main").run (system ⟨.default, .default⟩ "main").init
      (shutdownLabels sampleStart sampleEnd) = some s ∧
    s.nodes.length = 3 ∧
    s.trace.filterMap endOf = [(2, .failed, 0), (1, .failed, 0), (0, .failed, 120)] ∧
    Returned s ∧ OrderedShutdown ⟨.default, .default⟩ "main" s := by
  have hrun : ((system ⟨.default, .default⟩ "main").run
      (system ⟨.default, .default⟩ "main").init
      (shutdownLabels sampleStart sampleEnd)).map (fun s =>
        (s.nodes.length, s.trace.filterMap endOf, (s.nodes[0]?).map fun n => n.pc.isShut)) =
      some (3, [(2, .failed, 0), (1, .failed, 0), (0, .failed, 120)], some true) := by
    decide +kernel
  obtain ⟨s, hs, heq⟩ := Option.map_eq_some_iff.mp hrun
  simp only [Prod.mk.injEq] at heq
  obtain ⟨n, hn, hshut⟩ := Option.map_eq_some_iff.mp heq.2.2
  have hlimits : Limits.default.validate (fun _ => true) = .ok () :=
    Limits.validate_default fun _ _ => rfl
  have hordered := ordered_shutdown ⟨.default, .default⟩ "main" hlimits
    (LTS.System.reachable_of_run hs)
  exact ⟨s, hs, heq.1, heq.2.1, hordered.returned ⟨n, hn, Pc.eq_shut hshut⟩, hordered⟩

end Kyora.Shutdown
