import Kyora.Loop.Invariant

/-! # The terminal decision

  Wherever a cancellation or the deadline falls: an accepted answer is final,
  a node that was seen stopped without one ends stopped, and a node that ends
  its turn completes only when nothing more can arrive.
-/

namespace Kyora.Loop

open Conversation (Stop Turn ToolOutput Answer CallError Decided)

/-! ### Single acts -/

/-- A tool that is executed was started by a look that found nothing. -/
theorem asks_of_starts {cfg : Conversation.Config} {t : Turn} {use : ToolUse}
    {stop : Option Stop} (h : Conversation.starts cfg t use stop = true) :
    asksToStart t use = true ∧ stop = none := by
  refine ⟨?_, (Conversation.starts_eq_true h).2.2⟩
  unfold Conversation.starts at h
  simp only [Bool.and_eq_true] at h
  unfold asksToStart
  simp only [Bool.and_eq_true]
  exact h.1.1

/-- A call that sees the node stopped dispatches nothing. -/
theorem dispatches_of_obeys {stop : Stop} {l : Attempts.Label}
    (h : obeys (some stop) l = true) : dispatches l = [] := by
  cases l with
  | dispatch k => cases h
  | _ => rfl

/-- An accepted answer stays. -/
theorem accepted_step {cfg : Config} {s t : State} {a : Act} (h : s.Sound cfg)
    (hrun : Runs cfg s a t) {answer : Answer} (haccepted : s.accepted = some answer) :
    t.accepted = some answer := by
  cases hrun with
  | toolEnded output late conv hdoing hlook hstep =>
    rw [h.running hdoing] at haccepted
    cases haccepted
  | looked | unrequested | requested | started | unstarted | resulted | decided | idled =>
    simpa using haccepted
  | _ => exact haccepted

/-- An answer is accepted only when the tool returns, by a look that found
    nothing. -/
theorem accepts_step {cfg : Config} {s t : State} {a : Act} (h : s.Sound cfg)
    (hrun : Runs cfg s a t) (hnone : s.accepted = none) {answer : Answer}
    (haccepted : t.accepted = some answer) :
    s.flags.must = false ∧ Conversation.accept cfg.agent answer = .ok answer := by
  have hsame : t.accepted ≠ s.accepted := by
    rw [hnone, haccepted]
    exact Option.some_ne_none answer
  cases hrun with
  | toolEnded output late conv hdoing hlook hstep =>
    rcases answer_step hstep (h.undecided hnone) with
      hstill | ⟨stop, output', answer', hl, hanswer, hfinal, haccept⟩
    · rw [show answerOf conv.pc = some answer from haccepted] at hstill
      cases hstill
    · cases hl
      rw [hanswer] at haccepted
      obtain rfl := Option.some.inj haccepted
      rw [hfinal] at hlook
      exact ⟨must_of_look_none hlook, haccept⟩
  | looked | unrequested | requested | started | unstarted | resulted | decided | idled =>
    exact absurd (look_accepted s _) hsame
  | _ => exact absurd rfl hsame

/-- What holds from then on of a node seen stopped without an answer. -/
structure Over (s t : State) : Prop where
  seen : t.seen = true
  accepted : t.accepted = none
  started : t.started = s.started
  dispatched : t.dispatched = s.dispatched

theorem over_step {cfg : Config} {s t : State} {a : Act} (h : s.Sound cfg)
    (hrun : Runs cfg s a t) (hseen : s.seen = true) (hnone : s.accepted = none) : Over s t := by
  have hmust := h.watched hseen
  have haccepted : t.accepted = none := by
    cases hanswer : t.accepted with
    | none => rfl
    | some answer =>
      rw [(accepts_step h hrun hnone hanswer).1] at hmust
      cases hmust
  have hlook : (s.look true).2 ≠ none := by
    intro hlook
    rw [must_of_look_none hlook] at hmust
    cases hmust
  cases hrun with
  | looked k c l attempts hdoing hl hc hlooks hobeys hstep =>
    cases hstop : (s.look true).2 with
    | none => exact absurd hstop hlook
    | some stop =>
      rw [hstop] at hobeys
      refine ⟨look_seen true hseen, haccepted, look_started s true, ?_⟩
      show s.dispatched ++ dispatches l = s.dispatched
      rw [dispatches_of_obeys hobeys, List.append_nil]
  | started u use pending hpc hdoing hpending hstarts =>
    obtain ⟨hasks, hstop⟩ := asks_of_starts hstarts
    rw [hasks] at hstop
    exact absurd hstop hlook
  | callCancelled | streamCancelled | overtaken | idleCancelled =>
    exact ⟨rfl, haccepted, rfl, rfl⟩
  | unrequested | requested | unstarted | toolEnded | resulted | decided | idled =>
    exact ⟨look_seen _ hseen, haccepted, look_started s _, look_dispatched s _⟩
  | _ => exact ⟨hseen, haccepted, rfl, rfl⟩

/-! ### Runs -/

theorem accepted_of_run {cfg : Config} {s t : State} {as : List Act} {answer : Answer}
    (h : (loop cfg).Reachable s) (haccepted : s.accepted = some answer)
    (hrun : (loop cfg).run s as = some t) : t.accepted = some answer := by
  have hkept : ∀ u a v, ((loop cfg).Reachable u ∧ u.accepted = some answer) →
      (loop cfg).step u a = some v → (loop cfg).Reachable v ∧ v.accepted = some answer := by
    intro u a v hu hstep
    exact ⟨hu.1.next hstep, accepted_step (sound_of_reachable hu.1) (runs_of_step hstep) hu.2⟩
  exact ((loop cfg).run_invariant hkept ⟨h, haccepted⟩ hrun).2

theorem over_of_run {cfg : Config} {s t : State} {as : List Act}
    (h : (loop cfg).Reachable s) (hseen : s.seen = true) (hnone : s.accepted = none)
    (hrun : (loop cfg).run s as = some t) : Over s t := by
  have hkept : ∀ u a v, ((loop cfg).Reachable u ∧ Over s u) →
      (loop cfg).step u a = some v → (loop cfg).Reachable v ∧ Over s v := by
    intro u a v hu hstep
    have hover := over_step (sound_of_reachable hu.1) (runs_of_step hstep) hu.2.seen
      hu.2.accepted
    exact ⟨hu.1.next hstep, hover.seen, hover.accepted, hover.started.trans hu.2.started,
      hover.dispatched.trans hu.2.dispatched⟩
  exact ((loop cfg).run_invariant hkept ⟨h, hseen, hnone, rfl, rfl⟩ hrun).2

/-! ### The end of a turn -/

/-- A node completes without an accepted answer only at its turn cap, or after
    `idle` found a mailbox to which nothing more comes. -/
theorem endTurn_step {cfg : Config} {s t : State} {a : Act} (h : s.Sound cfg)
    (hrun : Runs cfg s a t) (hlive : ∀ status, s.conv.pc ≠ .ended status)
    (hended : t.conv.pc = .ended .completed) (hnone : t.accepted = none) :
    cfg.agent.maxTurns ≤ s.conv.turns ∨ (Quiet t.inbox ∧ t.inbox.box.closed = true) := by
  have hbefore : s.accepted = none := by
    cases hanswer : s.accepted with
    | none => rfl
    | some answer =>
      rw [accepted_step h hrun hanswer] at hnone
      cases hnone
  have hsame : t.conv ≠ s.conv := by
    intro heq
    rw [heq] at hended
    exact hlive _ hended
  have hstop : ∀ {stop : Stop}, stop.status ≠ .completed := by
    intro stop hcompleted
    cases stop <;> cases hcompleted
  cases hrun with
  | looked | started => exact absurd (look_conv s _) hsame
  | opened r conv hpc hbatch hstep => cases ends_of_step hstep hended
  | unrequested stop conv hlook hpc hstep hended' =>
    generalize hstatus : Status.completed = status at hended
    cases ends_of_step hstep hended with
    | stopped stop => exact absurd hstatus.symm hstop
    | capped => cases hstatus
  | requested n stop conv attempts hlook hpc hstep hconv hcall =>
    rw [show conv.pc = _ from hended] at hconv
    cases hconv
  | answered response invalid conv hexit hstep => cases ends_of_step hstep hended
  | failed exit error conv hexit herror hstep =>
    generalize hstatus : Status.completed = status at hended
    cases ends_of_step hstep hended with
    | failed error stop =>
      -- No failed request completes a node.
      exfalso
      unfold Conversation.statusFor at hstatus
      split at hstatus
      · cases hstatus
      · exact hstop hstatus.symm
      · cases hstatus
      · cases hstatus
      · cases hstatus
  | unstarted u use pending stop conv hpc hpending hlook hstarts hstep =>
    cases ends_of_step hstep hended
  | toolEnded output late conv hdoing hlook hstep => cases ends_of_step hstep hended
  | overtaken conv hdoing hnoticed hstep => cases ends_of_step hstep hended
  | resulted u asked wanted r conv hpc hbatch hstep => cases ends_of_step hstep hended
  | decided u wanted r conv hpc hbatch hstep =>
    have hends := ends_of_step hstep hended
    generalize (s.look u.finalAnswer.isNone).2 = stop at hends
    generalize hstatus : Status.completed = status at hends
    cases hends with
    | completed stop batch hsome => exact absurd (h.undecided hbefore) hsome
    | overtaken stop batch => exact absurd hstatus.symm hstop
    | wentOut batch status hturns => exact Or.inl (hturns hstatus.symm)
  | woken batch conv hdoing hstep => cases ends_of_step hstep hended
  | idled wanted r conv hdoing hwanted hbatch hstep =>
    have hends := ends_of_step hstep hended
    generalize hlook : (s.look true).2 = stop at hends
    generalize hstatus : Status.completed = status at hends
    cases hends with
    | idleStopped stop batch => exact absurd hstatus.symm hstop
    | idleEnded batch status houtput =>
      right
      have hs := h.doing
      have hno := houtput hstatus.symm
      rcases hdoing with hdoing | hdoing
      · rw [hdoing] at hs
        -- Without a contract nothing is delivered here.
        cases wanted with
        | true =>
          have hsome := hwanted rfl
          rw [hno] at hsome
          cases hsome
        | false =>
          obtain rfl := Option.some.inj hbatch
          exact hs.2 hno
      · rw [hdoing] at hs
        have hmust := hs.2
        rw [must_of_look_none hlook] at hmust
        cases hmust
  | aborted conv hstep => cases ends_of_step hstep hended
  | _ => exact absurd rfl hsame

/-! ### The decision -/

/-- What holds of the terminal decision in a state the loop reaches. -/
structure TerminalDecision (cfg : Config) (s : State) : Prop where
  /-- An answer is accepted only from a node that is not stopped, not past its
      deadline, and if the contract holds. -/
  accepts : ∀ {a : Act} {t : State} {answer : Answer}, (loop cfg).step s a = some t →
    s.accepted = none → t.accepted = some answer →
    s.flags.must = false ∧ Conversation.accept cfg.agent answer = .ok answer
  /-- Once accepted it is the outcome, whatever arrives later. -/
  final : ∀ {as : List Act} {t : State} {answer : Answer}, s.accepted = some answer →
    (loop cfg).run s as = some t → t.accepted = some answer ∧
    ∀ status, t.conv.pc = .ended status → status = .completed ∧ t.conv.answer = answer
  /-- Once the node is seen stopped without one, nothing is accepted, started
      or dispatched any more, and it ends cancelled or timed out. -/
  stopped : ∀ {as : List Act} {t : State}, s.seen = true → s.accepted = none →
    (loop cfg).run s as = some t → t.accepted = none ∧ t.started = s.started ∧
    t.dispatched = s.dispatched ∧
    ∀ status, t.conv.pc = .ended status → status = .cancelled ∨ status = .timeout
  /-- It completes at the end of a turn when nothing is queued, no child is
      awaited and no send is in flight, or at the turn cap. -/
  endTurn : ∀ {a : Act} {t : State}, (loop cfg).step s a = some t →
    (∀ status, s.conv.pc ≠ .ended status) → t.conv.pc = .ended .completed →
    t.accepted = none →
    cfg.agent.maxTurns ≤ s.conv.turns ∨
      (t.inbox.box.queue = [] ∧ t.inbox.box.awaiting = ∅ ∧ t.inbox.sending = [] ∧
        t.inbox.box.reserved = 0 ∧ t.inbox.box.closed = true)

theorem terminal_decision (cfg : Config) {s : State} (h : (loop cfg).Reachable s) :
    TerminalDecision cfg s := by
  have hs := sound_of_reachable h
  refine ⟨?_, ?_, ?_, ?_⟩
  · intro a t answer hstep hnone haccepted
    exact accepts_step hs (runs_of_step hstep) hnone haccepted
  · intro as t answer haccepted hrun
    have hkept := accepted_of_run h haccepted hrun
    refine ⟨hkept, fun status hpc => ?_⟩
    have hdecided := (sound_of_reachable (h.run hrun)).decided hkept
    unfold Decided at hdecided
    rw [hpc] at hdecided
    exact hdecided
  · intro as t hseen hnone hrun
    have hover := over_of_run h hseen hnone hrun
    exact ⟨hover.accepted, hover.started, hover.dispatched,
      (sound_of_reachable (h.run hrun)).ended hover.seen hover.accepted⟩
  · intro a t hstep hlive hended hnone
    rcases endTurn_step hs (runs_of_step hstep) hlive hended hnone with
      hturns | ⟨hquiet, hclosed⟩
    · exact Or.inl hturns
    · right
      have hmail := Inbox.sound_of_reachable (inbox_of_loop (h.next hstep))
      have hsending : t.inbox.sending = [] := by
        apply List.length_eq_zero_iff.mp
        rw [← show _ = t.inbox.sending.length from hmail.reserved]
        exact hquiet.reserved
      exact ⟨hquiet.queue, hquiet.awaiting, hsending, hquiet.reserved, hclosed⟩

/-- The child of `contractConfig`, whose tool may be dropped. -/
def submitConfig : Config := ⟨0, Conversation.contractConfig, .default, fun _ => false⟩

/-- The first request is answered with a submission, and the tool starts. -/
def submittingActs : List Act :=
  [.opened, .request, .attempt (.resolved 0 none 10), .attempt (.acquire 0),
    .attempt (.reserve 0), .attempt (.emitted 0), .attempt (.dispatch 0),
    .attempt (.stream 0 (.response 0) false), .attempt (.settle 0), .attempt (.release 0),
    .attempt (.emitted 0), .attempt (.leave 0),
    .answered ⟨[.toolUse "a" "submit_result" .null], .toolUse, 0⟩ [], .toolStart]

/-- The node is cancelled after the tool returned, or before. -/
def submittedActs : List Act :=
  submittingActs ++ [.toolEnd ⟨[], false, some (.value "1")⟩, .cancel]

def cancelledActs : List Act :=
  submittingActs ++ [.cancel, .toolEnd ⟨[], false, some (.value "1")⟩]

theorem terminal_decision_submitted : ∃ s t,
    (loop submitConfig).run (loop submitConfig).init submittedActs = some s ∧
    (loop submitConfig).run (loop submitConfig).init cancelledActs = some t ∧
    s.accepted = some (.value "1") ∧ s.flags.token = true ∧ t.accepted = none ∧
    t.seen = true ∧ TerminalDecision submitConfig s ∧ TerminalDecision submitConfig t := by
  have hsubmitted : ((loop submitConfig).run (loop submitConfig).init submittedActs).map
      (fun s => (s.accepted, s.flags.token)) = some (some (.value "1"), true) := by
    decide +kernel
  have hcancelled : ((loop submitConfig).run (loop submitConfig).init cancelledActs).map
      (fun s => (s.accepted, s.seen)) = some (none, true) := by decide +kernel
  obtain ⟨s, hs, hsame⟩ := Option.map_eq_some_iff.mp hsubmitted
  obtain ⟨t, ht, hsame'⟩ := Option.map_eq_some_iff.mp hcancelled
  obtain ⟨haccepted, htoken⟩ := Prod.mk.inj hsame
  obtain ⟨hnone, hseen⟩ := Prod.mk.inj hsame'
  exact ⟨s, t, hs, ht, haccepted, htoken, hnone, hseen,
    terminal_decision submitConfig (LTS.System.reachable_of_run hs),
    terminal_decision submitConfig (LTS.System.reachable_of_run ht)⟩

end Kyora.Loop
