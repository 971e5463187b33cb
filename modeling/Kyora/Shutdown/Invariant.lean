import Kyora.Shutdown.Steps
import Kyora.Ledger.Admission

/-! # Owned work

  What a node still waits for is accounted for at every step: each task ever
  added is in the node's list, among those it is joining, or has ended. A
  child's task ends after the child's node, so a node that has joined its tasks
  has nothing alive below it.
-/

namespace Kyora.Shutdown

open Attempts (Config Call Guard)
open Trace (TraceEvent NodeStart AttemptStart AttemptEnd)

/-! ### Where a node stands -/

/-- The tasks that are being joined. -/
def Pc.waiting : Pc → List Nat
  | .joining tasks _ => tasks
  | _ => []

/-- The owned work is closed. -/
def Pc.isClosed : Pc → Bool
  | .joining _ _ | .ending _ | .recorded | .shut => true
  | _ => false

/-- Every owned task is joined. -/
def Pc.isLate : Pc → Bool
  | .joining [] _ | .ending _ | .recorded | .shut => true
  | _ => false

/-- The record of the end is written. -/
def Pc.isEnded : Pc → Bool
  | .recorded | .shut => true
  | _ => false

theorem Pc.isLate_of_isEnded {pc : Pc} (h : pc.isEnded = true) : pc.isLate = true := by
  cases pc with
  | recorded => rfl
  | shut => rfl
  | _ => cases h

theorem Pc.isClosed_of_isLate {pc : Pc} (h : pc.isLate = true) : pc.isClosed = true := by
  cases pc with
  | joining tasks result => rfl
  | ending outcome => rfl
  | recorded => rfl
  | shut => rfl
  | _ => cases h

/-! ### One step, node by node -/

/-- How a step changes one node. -/
inductive NodeStep (s : State) (i : NodeId) (n : Node) : Node → Prop where
  | same : NodeStep s i n n
  | started (hpc : n.pc = .admitted) : NodeStep s i n { n with pc := .running }
  | turn (hpc : n.pc = .running) : NodeStep s i n { n with turns := n.turns + 1 }
  | called (hpc : n.pc = .running) (hidle : s.idle n = true) :
      NodeStep s i n { n with call := some s.attempts.calls.length }
  | finished (result : Result) (hpc : n.pc = .running) (hidle : s.idle n = true) :
      NodeStep s i n { n with pc := .finished result }
  | closed (result : Result) (hpc : n.pc = .finished result) :
      NodeStep s i n { n with pc := .joining n.tasks result, closed := true, tasks := [] }
  | joined (k : Nat) (rest : List Nat) (result : Result)
      (hpc : n.pc = .joining (k :: rest) result) (hended : s.ended k = true) :
      NodeStep s i n { n with pc := .joining rest result }
  | concluded (result : Result) (outcome : AgentOutcome) (hpc : n.pc = .joining [] result)
      (houtcome : s.outcome i n result = some outcome) :
      NodeStep s i n { n with pc := .ending outcome }
  | recorded (outcome : AgentOutcome) (hpc : n.pc = .ending outcome) :
      NodeStep s i n { n with pc := .recorded }
  | shut (hpc : n.pc = .recorded) : NodeStep s i n { n with pc := .shut }
  /-- A task is added, and finished ones may be reaped. -/
  | owned (keep : Nat → Bool) (hopen : n.closed = false ∨ n.pc = .running)
      (hkeep : ∀ k ∈ n.tasks, keep k = false → s.ended k = true) :
      NodeStep s i n { n with
        tasks := n.tasks.filter keep ++ [s.tasks.length]
        owned := n.owned ++ [s.tasks.length] }

/-- How a step changes the nodes and the tasks. -/
inductive Grown (cfg : Config) (s t : State) : Prop where
  | kept (hnodes : t.nodes = s.nodes) (htasks : t.tasks = s.tasks)
  | ended (k : Nat) (task : Task) (panicked : Bool) (htask : s.tasks[k]? = some task)
      (hmay : s.mayEnd task = true) (hnodes : t.nodes = s.nodes)
      (htasks : t.tasks = s.tasks.set k { task with ended := true, panicked })
  | moved (i : NodeId) (n n' : Node) (hn : s.nodes[i]? = some n) (hstep : NodeStep s i n n')
      (hnodes : t.nodes = s.nodes.set i n')
      (htasks : t.tasks = s.tasks ∨ t.tasks = s.tasks ++ [⟨none, false, false⟩])
  | admitted (i : NodeId) (n n' : Node) (agent : Bool) (model : String) (limit : Option Nat)
      (ledger : Ledger.State) (id : NodeId) (hn : s.nodes[i]? = some n)
      (hpc : n.pc ≠ .admitted) (hopen : n.closed = false) (hstep : NodeStep s i n n')
      (howned : s.tasks.length ∈ n'.owned)
      (hcall : Ledger.admitChild cfg.limits s.ledger i agent limit = some (ledger, .ok id))
      (hledger : t.ledger = ledger)
      (hnodes : t.nodes = s.nodes.set i n' ++ [newNode i n agent model])
      (htasks : t.tasks = s.tasks ++ [⟨some id, false, false⟩])

theorem nodeStep_own {s : State} {i : NodeId} {n : Node} (reap : Nat → Bool)
    (hopen : n.closed = false ∨ n.pc = .running) :
    NodeStep s i n { n with
      tasks := (n.tasks.filter fun k => !(s.ended k && reap k)) ++ [s.tasks.length]
      owned := n.owned ++ [s.tasks.length] } := by
  apply NodeStep.owned _ hopen
  intro k _ hkeep
  -- Only finished tasks are reaped.
  rw [Bool.not_eq_false', Bool.and_eq_true] at hkeep
  exact hkeep.1

theorem grown_of_moved {cfg : Config} {s t : State} (h : Moved cfg s t) : Grown cfg s t := by
  cases h with
  | refused => exact .kept rfl rfl
  | attempt l a hl ha => exact .kept rfl rfl
  | settle k c result panicked g ledger settlement payload a hc hpc hg hsettle ha =>
    exact .kept rfl rfl
  | admitted i n agent limit model reap ledger id hn hpc hopen hcall =>
    refine .admitted i n _ agent model limit ledger id hn hpc hopen
      (nodeStep_own reap (Or.inl hopen)) ?_ hcall rfl rfl rfl
    exact List.mem_append_right _ (List.mem_singleton.mpr rfl)
  | own i n reap hn hopen => exact .moved i n _ hn (nodeStep_own reap hopen) rfl (Or.inr rfl)
  | note event h => exact .kept rfl rfl
  | taskEnds k task panicked htask hmay => exact .ended k task panicked htask hmay rfl rfl
  | started i n payload hn hpc => exact .moved i n _ hn (.started hpc) rfl (Or.inl rfl)
  | turn i n hn hpc => exact .moved i n _ hn (.turn hpc) rfl (Or.inl rfl)
  | called i n maxTokens hn hpc hidle =>
    exact .moved i n _ hn (.called hpc hidle) rfl (Or.inl rfl)
  | finished i n result panicked hn hpc hidle =>
    exact .moved i n _ hn (.finished result hpc hidle) rfl (Or.inl rfl)
  | closed i n result session hn hpc hcall =>
    exact .moved i n _ hn (.closed result hpc) rfl (Or.inl rfl)
  | joined i n k rest result hn hpc hended =>
    exact .moved i n _ hn (.joined k rest result hpc hended) rfl (Or.inl rfl)
  | concluded i n result outcome hn hpc houtcome =>
    exact .moved i n _ hn (.concluded result outcome hpc houtcome) rfl (Or.inl rfl)
  | recorded i n outcome hn hpc => exact .moved i n _ hn (.recorded outcome hpc) rfl (Or.inl rfl)
  | shut i n session hn hpc hcall => exact .moved i n _ hn (.shut hpc) rfl (Or.inl rfl)

/-- Every node is still there, one step on. -/
theorem Grown.node {cfg : Config} {s t : State} (h : Grown cfg s t) {i : NodeId} {n : Node}
    (hn : s.nodes[i]? = some n) : ∃ n', t.nodes[i]? = some n' ∧ NodeStep s i n n' := by
  have hset : ∀ {j : NodeId} {m m' : Node}, s.nodes[j]? = some m → NodeStep s j m m' →
      ∃ n', (s.nodes.set j m')[i]? = some n' ∧ NodeStep s i n n' := by
    intro j m m' hm hstep
    by_cases hij : j = i
    · subst hij
      obtain rfl := Option.some.inj (hm.symm.trans hn)
      exact ⟨m', List.getElem?_set_self (List.getElem?_eq_some_iff.mp hm).1, hstep⟩
    · refine ⟨n, ?_, .same⟩
      rw [List.getElem?_set_ne hij]
      exact hn
  cases h with
  | kept hnodes htasks => exact ⟨n, hnodes ▸ hn, .same⟩
  | ended k task panicked htask hmay hnodes htasks => exact ⟨n, hnodes ▸ hn, .same⟩
  | moved j m m' hm hstep hnodes htasks =>
    rw [hnodes]
    exact hset hm hstep
  | admitted j m m' agent model limit ledger id hm hpc hopen hstep howned hcall hledger hnodes =>
    obtain ⟨n', hn', hnext⟩ := hset hm hstep
    refine ⟨n', ?_, hnext⟩
    rw [hnodes, List.getElem?_append_left (List.getElem?_eq_some_iff.mp hn').1]
    exact hn'

/-- Every node was there before, or was just admitted below an open node. -/
theorem Grown.back {cfg : Config} {s t : State} (h : Grown cfg s t) {i : NodeId} {n' : Node}
    (hn' : t.nodes[i]? = some n') :
    (∃ n, s.nodes[i]? = some n ∧ NodeStep s i n n') ∨
    (i = s.nodes.length ∧ ∃ p m agent model, s.nodes[p]? = some m ∧ m.pc ≠ .admitted ∧
      m.closed = false ∧ n' = newNode p m agent model ∧
      ∃ m', t.nodes[p]? = some m' ∧ NodeStep s p m m' ∧ s.tasks.length ∈ m'.owned ∧
        t.tasks[s.tasks.length]? = some ⟨some s.ledger.scopes.length, false, false⟩) := by
  have hset : ∀ {j : NodeId} {m m' : Node}, s.nodes[j]? = some m → NodeStep s j m m' →
      (s.nodes.set j m')[i]? = some n' → ∃ n, s.nodes[i]? = some n ∧ NodeStep s i n n' := by
    intro j m m' hm hstep hi
    rcases Pool.getElem?_set_cases hm hi with ⟨-, hn⟩ | ⟨rfl, rfl⟩
    · exact ⟨n', hn, .same⟩
    · exact ⟨m, hm, hstep⟩
  cases h with
  | kept hnodes htasks => exact Or.inl ⟨n', hnodes ▸ hn', .same⟩
  | ended k task panicked htask hmay hnodes htasks => exact Or.inl ⟨n', hnodes ▸ hn', .same⟩
  | moved j m m' hm hstep hnodes htasks => exact Or.inl (hset hm hstep (hnodes ▸ hn'))
  | admitted j m m' agent model limit ledger id hm hpc hopen hstep howned hcall hledger hnodes
      htasks =>
    rw [hnodes] at hn'
    rcases Pool.getElem?_snoc hn' with hold | ⟨hi, rfl⟩
    · exact Or.inl (hset hm hstep hold)
    · rw [List.length_set] at hi
      have hlt := (List.getElem?_eq_some_iff.mp hm).1
      refine Or.inr ⟨hi, j, m, agent, model, hm, hpc, hopen, rfl, m', ?_, hstep, howned, ?_⟩
      · rw [hnodes, List.getElem?_append_left (by rwa [List.length_set]),
          List.getElem?_set_self hlt]
      · obtain ⟨_, _, -, -, -, -, -, -, hid, -⟩ := Ledger.admitChild_ok hcall
        rw [htasks, List.getElem?_concat_length, hid]

/-- Tasks stay what they are and stay ended. -/
theorem Grown.task {cfg : Config} {s t : State} (h : Grown cfg s t) {k : Nat} {task : Task}
    (htask : s.tasks[k]? = some task) : ∃ task', t.tasks[k]? = some task' ∧
      task'.node = task.node ∧ (task.ended = true → task'.ended = true) := by
  have happend : ∀ x : Task, ∃ task', (s.tasks ++ [x])[k]? = some task' ∧
      task'.node = task.node ∧ (task.ended = true → task'.ended = true) := by
    intro x
    refine ⟨task, ?_, rfl, id⟩
    rw [List.getElem?_append_left (List.getElem?_eq_some_iff.mp htask).1]
    exact htask
  cases h with
  | kept hnodes htasks => exact ⟨task, htasks ▸ htask, rfl, id⟩
  | ended j x panicked hx hmay hnodes htasks =>
    rw [htasks]
    by_cases hjk : j = k
    · subst hjk
      obtain rfl := Option.some.inj (hx.symm.trans htask)
      exact ⟨_, List.getElem?_set_self (List.getElem?_eq_some_iff.mp hx).1, rfl, fun _ => rfl⟩
    · refine ⟨task, ?_, rfl, id⟩
      rw [List.getElem?_set_ne hjk]
      exact htask
  | moved j m m' hm hstep hnodes htasks =>
    rcases htasks with htasks | htasks
    · exact ⟨task, htasks ▸ htask, rfl, id⟩
    · rw [htasks]
      exact happend _
  | admitted j m m' agent model limit ledger id hm hpc hopen hstep howned hcall hledger hnodes
      htasks =>
    rw [htasks]
    exact happend _

/-- A task that has ended had ended before, or was free to end. -/
theorem Grown.task_back {cfg : Config} {s t : State} (h : Grown cfg s t) {k : Nat} {task' : Task}
    (htask' : t.tasks[k]? = some task') (hended : task'.ended = true) :
    ∃ task, s.tasks[k]? = some task ∧ task'.node = task.node ∧
      (task.ended = true ∨ s.mayEnd task = true) := by
  have happend : ∀ {x : Task}, x.ended = false → (s.tasks ++ [x])[k]? = some task' →
      ∃ task, s.tasks[k]? = some task ∧ task'.node = task.node ∧
        (task.ended = true ∨ s.mayEnd task = true) := by
    intro x hx hk
    rcases Pool.getElem?_snoc hk with hold | ⟨-, rfl⟩
    · exact ⟨task', hold, rfl, Or.inl hended⟩
    · rw [hx] at hended
      cases hended
  cases h with
  | kept hnodes htasks => exact ⟨task', htasks ▸ htask', rfl, Or.inl hended⟩
  | ended j x panicked hx hmay hnodes htasks =>
    rw [htasks] at htask'
    rcases Pool.getElem?_set_cases hx htask' with ⟨-, hold⟩ | ⟨rfl, rfl⟩
    · exact ⟨task', hold, rfl, Or.inl hended⟩
    · exact ⟨x, hx, rfl, Or.inr hmay⟩
  | moved j m m' hm hstep hnodes htasks =>
    rcases htasks with htasks | htasks
    · exact ⟨task', htasks ▸ htask', rfl, Or.inl hended⟩
    · exact happend rfl (htasks ▸ htask')
  | admitted j m m' agent model limit ledger id hm hpc hopen hstep howned hcall hledger hnodes
      htasks =>
    exact happend rfl (htasks ▸ htask')

theorem ended_iff {s : State} {k : Nat} :
    s.ended k = true ↔ ∃ task, s.tasks[k]? = some task ∧ task.ended = true := by
  unfold State.ended
  cases htask : s.tasks[k]? with
  | none => simp
  | some task => simp

theorem Grown.ended_mono {cfg : Config} {s t : State} (h : Grown cfg s t) {k : Nat}
    (hk : s.ended k = true) : t.ended k = true := by
  obtain ⟨task, htask, hended⟩ := ended_iff.mp hk
  obtain ⟨task', htask', -, hkeep⟩ := h.task htask
  exact ended_iff.mpr ⟨task', htask', hkeep hended⟩

/-! ### What a node owns -/

/-- A node accounts for every task it was ever given. -/
structure NodeOk (s : State) (n : Node) : Prop where
  closed : n.closed = n.pc.isClosed
  drained : n.pc.isClosed = true → n.tasks = []
  accounted : ∀ k ∈ n.owned, k ∈ n.tasks ∨ k ∈ n.pc.waiting ∨ s.ended k = true

theorem NodeOk.step {cfg : Config} {s t : State} {i : NodeId} {n n' : Node} (h : NodeOk s n)
    (hgrown : Grown cfg s t) (hstep : NodeStep s i n n') : NodeOk t n' := by
  -- What was accounted for still is, where the lists stay.
  have hkeep : ∀ k ∈ n.owned, k ∈ n.tasks ∨ k ∈ n.pc.waiting ∨ t.ended k = true := by
    intro k hk
    rcases h.accounted k hk with htask | hwait | hended
    · exact Or.inl htask
    · exact Or.inr (Or.inl hwait)
    · exact Or.inr (Or.inr (hgrown.ended_mono hended))
  have hclosed := h.closed
  have hdrained := h.drained
  cases hstep with
  | same => exact ⟨hclosed, hdrained, hkeep⟩
  | started hpc =>
    rw [hpc] at hkeep hclosed
    exact ⟨hclosed, fun hno => (nomatch hno), hkeep⟩
  | turn hpc => exact ⟨hclosed, hdrained, hkeep⟩
  | called hpc hidle => exact ⟨hclosed, hdrained, hkeep⟩
  | finished result hpc hidle =>
    rw [hpc] at hkeep hclosed
    exact ⟨hclosed, fun hno => (nomatch hno), hkeep⟩
  | closed result hpc =>
    rw [hpc] at hkeep
    refine ⟨rfl, fun _ => rfl, ?_⟩
    intro k hk
    rcases hkeep k hk with htask | hwait | hended
    · exact Or.inr (Or.inl htask)
    · cases hwait
    · exact Or.inr (Or.inr hended)
  | joined k rest result hpc hended =>
    rw [hpc] at hkeep hclosed hdrained
    refine ⟨hclosed, hdrained, ?_⟩
    intro j hj
    rcases hkeep j hj with htask | hwait | hdone
    · exact Or.inl htask
    · -- The task joined now is the only one to leave the list.
      rcases List.mem_cons.mp hwait with rfl | hrest
      · exact Or.inr (Or.inr (hgrown.ended_mono hended))
      · exact Or.inr (Or.inl hrest)
    · exact Or.inr (Or.inr hdone)
  | concluded result outcome hpc houtcome =>
    rw [hpc] at hkeep hclosed hdrained
    exact ⟨hclosed, hdrained, hkeep⟩
  | recorded outcome hpc =>
    rw [hpc] at hkeep hclosed hdrained
    exact ⟨hclosed, hdrained, hkeep⟩
  | shut hpc =>
    rw [hpc] at hkeep hclosed hdrained
    exact ⟨hclosed, hdrained, hkeep⟩
  | owned keep hopen hfinished =>
    -- Work can only be added while it is open.
    have hnot : n.pc.isClosed = false := by
      rcases hopen with hopen | hpc
      · rw [← hclosed]
        exact hopen
      · rw [hpc]
        rfl
    refine ⟨hclosed, ?_, ?_⟩
    · intro hyes
      rw [hnot] at hyes
      cases hyes
    · intro k hk
      rcases List.mem_append.mp hk with hold | hnew
      · rcases hkeep k hold with htask | hwait | hended
        · cases hkept : keep k with
          | true => exact Or.inl (List.mem_append_left _ (List.mem_filter.mpr ⟨htask, hkept⟩))
          | false =>
            exact Or.inr (Or.inr (hgrown.ended_mono (hfinished k htask hkept)))
        · exact Or.inr (Or.inl hwait)
        · exact Or.inr (Or.inr hended)
      · exact Or.inl (List.mem_append_right _ hnew)

/-- Once its tasks are joined, every task a node ever owned has ended. -/
theorem NodeOk.all_ended {s : State} {n : Node} (h : NodeOk s n) (hlate : n.pc.isLate = true) :
    ∀ k ∈ n.owned, s.ended k = true := by
  intro k hk
  rcases h.accounted k hk with htask | hwait | hended
  · rw [h.drained (Pc.isClosed_of_isLate hlate)] at htask
    cases htask
  · cases hpc : n.pc with
    | joining tasks result =>
      rw [hpc] at hlate hwait
      cases tasks with
      | nil => cases hwait
      | cons j rest => cases hlate
    | _ =>
      rw [hpc] at hwait
      cases hwait
  · exact hended

/-! ### What stays of a node -/

/-- Steps never take back where a node stands. -/
structure NodeStep.Keeps (n n' : Node) : Prop where
  parent : n'.parent = n.parent
  agent : n'.agent = n.agent
  owned : n.owned <+: n'.owned
  started : n.pc ≠ .admitted → n'.pc ≠ .admitted
  shut : n.pc = .shut → n'.pc = .shut
  late : n.pc.isLate = true → n'.pc.isLate = true ∧ n'.turns = n.turns
  ended : n.pc.isEnded = true → n'.pc.isEnded = true

theorem NodeStep.keeps {s : State} {i : NodeId} {n n' : Node} (h : NodeStep s i n n') :
    NodeStep.Keeps n n' := by
  have hmove : ∀ {pc pc' : Pc}, n.pc = pc → (pc ≠ .admitted → pc' ≠ .admitted) →
      (pc = .shut → pc' = .shut) → (pc.isLate = true → pc'.isLate = true) →
      (pc.isEnded = true → pc'.isEnded = true) →
      NodeStep.Keeps n { n with pc := pc' } := by
    intro pc pc' hpc hstarted hshut hlate hended
    subst hpc
    exact ⟨rfl, rfl, List.prefix_refl _, hstarted, hshut, fun hl => ⟨hlate hl, rfl⟩, hended⟩
  cases h with
  | same =>
    exact ⟨rfl, rfl, List.prefix_refl _, id, id, fun hl => ⟨hl, rfl⟩, id⟩
  | started hpc =>
    exact hmove hpc (fun _ h => nomatch h) (fun h => nomatch h) (fun h => nomatch h)
      (fun h => nomatch h)
  | turn hpc =>
    refine ⟨rfl, rfl, List.prefix_refl _, id, id, ?_, id⟩
    intro hl
    rw [hpc] at hl
    cases hl
  | called hpc hidle =>
    exact ⟨rfl, rfl, List.prefix_refl _, id, id, fun hl => ⟨hl, rfl⟩, id⟩
  | finished result hpc hidle =>
    exact hmove hpc (fun _ h => nomatch h) (fun h => nomatch h) (fun h => nomatch h)
      (fun h => nomatch h)
  | closed result hpc =>
    refine ⟨rfl, rfl, List.prefix_refl _, fun _ h => (nomatch h), ?_, ?_, ?_⟩
    · intro hs
      rw [hpc] at hs
      cases hs
    · intro hl
      rw [hpc] at hl
      cases hl
    · intro he
      rw [hpc] at he
      cases he
  | joined k rest result hpc hended =>
    refine hmove hpc (fun _ h => nomatch h) (fun h => nomatch h) ?_ (fun h => nomatch h)
    intro hl
    cases hl
  | concluded result outcome hpc houtcome =>
    exact hmove hpc (fun _ h => nomatch h) (fun h => nomatch h) (fun _ => rfl)
      (fun h => nomatch h)
  | recorded outcome hpc =>
    exact hmove hpc (fun _ h => nomatch h) (fun h => nomatch h) (fun _ => rfl)
      (fun h => nomatch h)
  | shut hpc =>
    exact hmove hpc (fun _ h => nomatch h) (fun h => nomatch h) (fun _ => rfl) (fun _ => rfl)
  | owned keep hopen hfinished =>
    exact ⟨rfl, rfl, List.prefix_append _ _, id, id, fun hl => ⟨hl, rfl⟩, id⟩

/-! ### The tree -/

/-- What scopes and nodes have in common. -/
def Node.place (n : Node) : Option NodeId × Bool := (n.parent, n.agent)

def State.places (s : State) : List (Option NodeId × Bool) :=
  s.ledger.scopes.map fun n => (n.parent, n.agent)

/-- Nodes, scopes and tasks belong together. -/
structure Placed (s : State) : Prop where
  places : s.nodes.map Node.place = s.places
  node : ∀ (i : NodeId) (n : Node), s.nodes[i]? = some n → NodeOk s n
  /-- A node runs as a task of its parent, which has started. -/
  child : ∀ (i p : NodeId) (n : Node), s.nodes[i]? = some n → n.parent = some p →
    ∃ m k task, s.nodes[p]? = some m ∧ m.pc ≠ .admitted ∧ k ∈ m.owned ∧
      s.tasks[k]? = some task ∧ task.node = some i
  /-- The task of a node ends after the node. -/
  task : ∀ (k : Nat) (task : Task) (i : NodeId), s.tasks[k]? = some task →
    task.node = some i → task.ended = true → ∃ n, s.nodes[i]? = some n ∧ n.pc = .shut

/-- Only an admission changes the places of the scopes. -/
theorem places_of_call {limits : Limits} {s t : Ledger.Session} {l : Ledger.Call}
    (h : Ledger.step limits s l = some t)
    (hl : ∀ parent agent limit, l ≠ .admitChild parent agent limit) :
    t.ledger.scopes.map (fun n => (n.parent, n.agent)) =
      s.ledger.scopes.map fun n => (n.parent, n.agent) := by
  have hlevel := congrArg (List.map fun level : Option NodeId × Nat × Bool =>
    (level.1, level.2.2)) (Ledger.level_step h hl)
  rwa [List.map_map, List.map_map] at hlevel

theorem places_of_stored {cfg : Config} {s t : Attempts.State} (h : Attempts.Stored cfg s t) :
    t.session.ledger.scopes.map (fun n => (n.parent, n.agent)) =
      s.session.ledger.scopes.map fun n => (n.parent, n.agent) := by
  obtain ⟨k, c, u, c', -, hmove, rfl⟩ := h
  show u.session.ledger.scopes.map _ = _
  rcases hmove.session with heq | ⟨l, hl, hcall⟩
  · rw [heq]
  · apply places_of_call hcall
    rintro parent agent limit rfl
    cases hl

/-- A step that admits no node leaves the places alone. -/
theorem places_of_moved {cfg : Config} {s t : State} (h : Moved cfg s t)
    (hnodes : t.nodes.length = s.nodes.length) : t.places = s.places := by
  cases h with
  | attempt l a hl ha => exact places_of_stored (stored_of_attempt (Or.inl hl) ha)
  | settle k c result panicked g ledger settlement payload a hc hpc hg hsettle ha =>
    exact places_of_stored (stored_of_attempt (Or.inr ⟨k, rfl⟩) ha)
  | admitted i n agent limit model reap ledger id hn hpc hopen hcall =>
    -- The one move that adds a node.
    exfalso
    simp only [State.own, List.length_append, List.length_set, List.length_singleton] at hnodes
    omega
  | closed i n result session hn hpc hcall =>
    exact places_of_call hcall fun _ _ _ hno => nomatch hno
  | shut i n session hn hpc hcall =>
    exact places_of_call hcall fun _ _ _ hno => nomatch hno
  | _ => rfl

theorem placed_init (cfg : Config) (model : String) : Placed (system cfg model).init := by
  have hroot : ∀ (i : NodeId) (n : Node), (system cfg model).init.nodes[i]? = some n →
      n = rootNode model := by
    intro i n hn
    exact List.mem_singleton.mp (List.mem_of_getElem? hn)
  refine ⟨rfl, ?_, ?_, ?_⟩
  · intro i n hn
    rw [hroot i n hn]
    exact ⟨rfl, fun _ => rfl, fun k hk => (nomatch hk)⟩
  · intro i p n hn hp
    rw [hroot i n hn] at hp
    cases hp
  · intro k task i htask
    cases htask

theorem Placed.length {s : State} (h : Placed s) :
    s.nodes.length = s.ledger.scopes.length := by
  have heq := congrArg List.length h.places
  rwa [State.places, List.length_map, List.length_map] at heq

theorem NodeStep.place {s : State} {i : NodeId} {n n' : Node} (h : NodeStep s i n n') : n'.place = n.place := by
  unfold Node.place
  rw [h.keeps.parent, h.keeps.agent]

/-- A task that may end and runs a node finds that node shut down. -/
theorem shut_of_mayEnd {s : State} {task : Task} {i : NodeId} (h : s.mayEnd task = true)
    (hnode : task.node = some i) : ∃ n, s.nodes[i]? = some n ∧ n.pc = .shut := by
  unfold State.mayEnd at h
  rw [hnode, Bool.and_eq_true, Option.all_some] at h
  cases hn : s.nodes[i]? with
  | none =>
    rw [hn] at h
    cases h.2
  | some n =>
    refine ⟨n, rfl, ?_⟩
    rw [hn, Option.map_some] at h
    cases hpc : n.pc with
    | shut => rfl
    | _ =>
      rw [hpc] at h
      cases h.2

theorem placed_step {cfg : Config} {s t : State} (h : Placed s) (hm : Moved cfg s t) :
    Placed t := by
  have hg := grown_of_moved hm
  refine ⟨?_, ?_, ?_, ?_⟩
  · cases hg with
    | kept hnodes htasks =>
      rw [hnodes, h.places, places_of_moved hm (by rw [hnodes])]
    | ended k task panicked htask hmay hnodes htasks =>
      rw [hnodes, h.places, places_of_moved hm (by rw [hnodes])]
    | moved i n n' hn hstep hnodes htasks =>
      rw [places_of_moved hm (by rw [hnodes, List.length_set]), hnodes,
        Ledger.map_set_same hn hstep.place, h.places]
    | admitted i n n' agent model limit ledger id hn hpc hopen hstep howned hcall hledger hnodes =>
      obtain ⟨p, ids, -, -, -, -, -, -, -, hscopes, -⟩ := Ledger.admitChild_ok hcall
      unfold State.places
      rw [hnodes, List.map_append, Ledger.map_set_same hn hstep.place, h.places, hledger, hscopes,
        List.map_append]
      rfl
  · intro i n' hn'
    rcases hg.back hn' with ⟨n, hn, hstep⟩ | ⟨-, p, m, agent, model, -, -, -, rfl, -⟩
    · exact (h.node i n hn).step hg hstep
    · exact ⟨rfl, fun _ => rfl, fun k hk => (nomatch hk)⟩
  · intro i p n' hn' hp
    rcases hg.back hn' with ⟨n, hn, hstep⟩ |
      ⟨rfl, q, m, agent, model, hm, hpc, hopen, rfl, m', hm', hstep, howned, htask⟩
    · -- Where a node was someone's child, it still is.
      rw [hstep.keeps.parent] at hp
      obtain ⟨m, k, task, hm, hpc, hk, htask, hnode⟩ := h.child i p n hn hp
      obtain ⟨m', hm', hstep'⟩ := hg.node hm
      obtain ⟨task', htask', hnode', -⟩ := hg.task htask
      exact ⟨m', k, task', hm', hstep'.keeps.started hpc, hstep'.keeps.owned.subset hk, htask',
        hnode'.trans hnode⟩
    · obtain rfl := Option.some.inj hp
      refine ⟨m', _, _, hm', hstep.keeps.started hpc, howned, htask, ?_⟩
      rw [h.length]
  · intro k task' i htask' hnode hended
    obtain ⟨task, htask, hsame, hwas⟩ := hg.task_back htask' hended
    have hshut : ∃ n, s.nodes[i]? = some n ∧ n.pc = .shut := by
      rcases hwas with hwas | hmay
      · exact h.task k task i htask (hsame ▸ hnode) hwas
      · exact shut_of_mayEnd hmay (hsame ▸ hnode)
    obtain ⟨n, hn, hpc⟩ := hshut
    obtain ⟨n', hn', hstep⟩ := hg.node hn
    exact ⟨n', hn', hstep.keeps.shut hpc⟩

theorem placed_of_reachable {cfg : Config} {model : String} {s : State}
    (h : (system cfg model).Reachable s) : Placed s :=
  LTS.System.invariant (placed_init cfg model)
    (fun _ _ _ hs _ hstep => placed_step hs (moved_of_step hstep)) s h

/-! ### Below a node that has joined its tasks -/

theorem Placed.links {s : State} (h : Placed s) : s.links = s.ledger.links := by
  funext i
  have heq := congrArg (fun xs => (xs[i]?).map Prod.fst) h.places
  simp only [State.places, List.getElem?_map, Option.map_map] at heq
  exact heq

/-- A child of a node that has joined its tasks is shut down. -/
theorem Placed.child_shut {s : State} (h : Placed s) {i p : NodeId} {n m : Node}
    (hm : s.nodes[p]? = some m) (hlate : m.pc.isLate = true) (hn : s.nodes[i]? = some n)
    (hp : n.parent = some p) : n.pc = .shut := by
  obtain ⟨m', k, task, hm', -, hk, htask, hnode⟩ := h.child i p n hn hp
  obtain rfl := Option.some.inj (hm'.symm.trans hm)
  obtain ⟨task', htask', hended⟩ := ended_iff.mp ((h.node p m' hm).all_ended hlate k hk)
  obtain rfl := Option.some.inj (htask'.symm.trans htask)
  obtain ⟨n', hn', hpc⟩ := h.task k task' i htask hnode hended
  obtain rfl := Option.some.inj (hn'.symm.trans hn)
  exact hpc

/-- So is everything further below. -/
theorem Placed.below_shut {s : State} (h : Placed s) {a i : NodeId} {m n : Node}
    (hm : s.nodes[a]? = some m) (hlate : m.pc.isLate = true) (hn : s.nodes[i]? = some n)
    (hbelow : Forest.Below s.links a i) (hne : i ≠ a) : n.pc = .shut := by
  induction hbelow using Relation.ReflTransGen.head_induction_on generalizing n with
  | refl => exact absurd rfl hne
  | @head i c hp hrest ih =>
    have hparent := hp
    unfold Forest.IsParent State.links at hparent
    rw [hn, Option.map_some, Option.some.injEq] at hparent
    obtain ⟨u, k, task, hu, -⟩ := h.child i c n hn hparent
    by_cases hca : c = a
    · subst hca
      exact h.child_shut hm hlate hn hparent
    · have hup := ih hu hca
      exact h.child_shut hu (by rw [hup]; rfl) hn hparent

end Kyora.Shutdown
