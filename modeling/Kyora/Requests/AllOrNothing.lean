import Kyora.Requests.Reservations

/-! # All or nothing

  A request either has its task started or has no effect, and the reservation
  of an accepted send is always given up.
-/

namespace Kyora.Requests

open LTS

open Tree (Config Node ChildSpec Owner LlmCall)

/-- An accepted send has its task started, with one more reservation in the
    mailbox of its recipient. -/
theorem send_started {cfg : Config} {s t : State} {n : Node} {to_ : NodeId} {body : String}
    {sentAt : Int} {id : Nat} (h : send cfg s n to_ body sentAt = (t, .ok id)) :
    ∃ x, t.sending s.tasks.length = some x ∧ x.message.envelope.id = id ∧ x.phase = .waiting ∧
      (t.boxes x.recipient).reserved = (s.boxes x.recipient).reserved + 1 := by
  rcases send_cases h with ⟨-, e, he⟩ | ⟨x, haccepted, hok⟩
  · cases he
  · refine ⟨x, ?_, (Except.ok.inj hok).symm, haccepted.phase, ?_⟩
    · rw [haccepted.sending, if_pos rfl]
    · rw [haccepted.reserved, if_pos rfl]

/-- A refused request leaves everything as it was, the token of a caller with
    a cancelled owner apart. What is reserved is held by sends that were not
    pushed yet; a push never fails to give up its reservation, whether its
    recipient has closed or not; and where the tasks of sends get their turns,
    each of them comes to its end. -/
theorem all_or_nothing (cfg : Config) :
    (∀ s t n spec owner e, spawnAgent cfg s n spec owner = some (t, .error e) → Refused n s t) ∧
    (∀ s t n call owner e, llm cfg s n call owner = some (t, .error e) → Refused n s t) ∧
    (∀ s t n to_ body sentAt e, send cfg s n to_ body sentAt = (t, .error e) → Refused n s t) ∧
    (∀ s t n to_ body sentAt id, send cfg s n to_ body sentAt = (t, .ok id) →
      ∃ x, t.sending s.tasks.length = some x ∧ x.message.envelope.id = id ∧
        x.phase = .waiting ∧
        (t.boxes x.recipient).reserved = (s.boxes x.recipient).reserved + 1) ∧
    (∀ s, (requests cfg).Reachable s → (∀ b, (s.boxes b).reserved = s.holding b) ∧
      ∀ k x written, s.sending k = some x → x.phase = .pushing →
        ∃ t, advance s k written = some t ∧
          (t.boxes x.recipient).reserved + 1 = (s.boxes x.recipient).reserved ∧
          t.sending k = some { x with
            phase := if (s.boxes x.recipient).closed then .returning
              else .done (.ok x.message.envelope.id) }) ∧
    ∀ e : Execution (requests cfg), FairToSends e → ∀ i k x, (e.states i).sending k = some x →
      ∃ j, i ≤ j ∧ ∃ y result, (e.states j).sending k = some y ∧ y.phase = .done result ∧
        ∀ b, ((e.states j).boxes b).reserved = (e.states j).holding b := by
  refine ⟨?_, ?_, ?_, ?_, ?_, ?_⟩
  · intro s t n spec owner e h
    exact spawnAgent_refused h
  · intro s t n call owner e h
    exact llm_refused h
  · intro s t n to_ body sentAt e h
    exact send_refused h
  · intro s t n to_ body sentAt id h
    exact send_started h
  · intro s hs
    have hsound := sound_of_reachable hs
    exact ⟨hsound.reserved, fun k x written hx hphase => hsound.pushed hx hphase written⟩
  · intro e hfair i k x hx
    obtain ⟨j, hij, y, result, hy, hphase⟩ := ended_of_fair hfair k i ⟨x, hx⟩
    exact ⟨j, hij, y, result, hy, hphase, (sound_of_reachable (e.reachable j)).reserved⟩

/-! ### A recipient that closes in between -/

/-- A child without tools. -/
def helperSpec : ChildSpec where
  task := "t"
  name := none
  model := none
  tools := some []
  maxTurns := none
  budget := none
  timeout := none
  init := none
  preamble := none
  originCell := none
  output := none

/-- The root spawns a child and sends it a message, and the child closes its
    mailbox before the message is pushed. -/
def closedLabels : List Label :=
  [.tree (.freeze 0 (.ok .empty)), .spawnAgent 0 helperSpec .node, .send 0 1 "m" 0,
    .advance 1 true, .advance 1 true, .mailbox 1 .close, .advance 1 true, .advance 1 true]

/-- A send that is refused because the recipient has finished. -/
def isFinishedError (agent : NodeId) : Except RecursionError Nat → Bool
  | .error e => e == .agentFinished agent
  | .ok _ => false

/-- A send that has come to its end, or no send at all. -/
def Task.isSettled : Task → Bool
  | .send x => x.phase.isDone
  | .other .. => true

/-- A run at whose end every send has come to its end is fair to the sends. -/
theorem fairToSends_ofRun {cfg : Config} {ls : List Label} {s : State}
    (h : (requests cfg).run (requests cfg).init ls = some s)
    (hsettled : s.tasks.all Task.isSettled = true) : FairToSends (Execution.ofRun h) := by
  intro k
  apply Execution.ofRun_fair
  rintro ⟨l, ⟨written, rfl⟩, t, ht⟩
  obtain ⟨x, y, hadvanced⟩ := advanced_of_advance ht
  have hmem := List.mem_of_getElem? (sending_eq.mp hadvanced.was)
  have hdone := Phase.rank_eq_zero.mpr (List.all_eq_true.mp hsettled _ hmem)
  have hlt := hadvanced.phase
  rw [hdone] at hlt
  exact absurd hlt (Nat.not_lt_zero _)

/-- The message of the root is recorded and then returned, and the next one is
    refused. -/
theorem all_or_nothing_closed : ∃ e : Execution (requests Tree.demo), FairToSends e ∧
    (∃ i x, (e.states i).sending 1 = some x ∧ x.phase.rank = 2 ∧
      ((e.states i).boxes 1).closed = true ∧
      ∃ j, i ≤ j ∧ ∃ y result, (e.states j).sending 1 = some y ∧ y.phase = .done result ∧
        ∀ b, ((e.states j).boxes b).reserved = (e.states j).holding b) ∧
    ∃ s n t e, send Tree.demo s n 1 "m" 0 = (t, .error e) ∧ e = .agentFinished 1 ∧
      Refused n s t := by
  have hmiddle : ((requests Tree.demo).run (requests Tree.demo).init (closedLabels.take 6)).map
      (fun s => ((s.sending 1).map fun x => x.phase.rank, (s.boxes 1).closed)) =
        some (some 2, true) := by decide +kernel
  have hend : ((requests Tree.demo).run (requests Tree.demo).init closedLabels).map
      (fun s => (s.tasks.all Task.isSettled,
        (s.tree.nodes[0]?).map fun n => isFinishedError 1 (send Tree.demo s n 1 "m" 0).2)) =
        some (true, some true) := by decide +kernel
  obtain ⟨s, hrun, hview⟩ := Option.map_eq_some_iff.mp hend
  obtain ⟨hsettled, hrefused⟩ := Prod.mk.inj hview
  obtain ⟨n, -, hn⟩ := Option.map_eq_some_iff.mp hrefused
  have hfair := fairToSends_ofRun hrun hsettled
  obtain ⟨-, -, hsend, -, -, hfinish⟩ := all_or_nothing Tree.demo
  refine ⟨Execution.ofRun hrun, hfair, ?_, ?_⟩
  · obtain ⟨m, hm, hview⟩ := Option.map_eq_some_iff.mp hmiddle
    obtain rfl := Option.some.inj ((Execution.run_take hrun 6).symm.trans hm)
    obtain ⟨hx, hclosed⟩ := Prod.mk.inj hview
    obtain ⟨x, hx, hrank⟩ := Option.map_eq_some_iff.mp hx
    exact ⟨6, x, hx, hrank, hclosed, hfinish _ hfair 6 1 x hx⟩
  · cases hresult : (send Tree.demo s n 1 "m" 0).2 with
    | ok id =>
      rw [hresult] at hn
      cases hn
    | error e =>
      rw [hresult] at hn
      have heq : send Tree.demo s n 1 "m" 0 = ((send Tree.demo s n 1 "m" 0).1, .error e) :=
        Prod.ext rfl hresult
      exact ⟨s, n, _, e, heq, eq_of_beq hn, hsend s _ n 1 "m" 0 e heq⟩

end Kyora.Requests
