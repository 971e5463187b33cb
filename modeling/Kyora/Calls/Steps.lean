import Kyora.Calls.Basic

/-! # What one step of a call does

  `Moved` lists the moves of a single call, with the inbox before and after
  it; `step_cases` says that a step is one of another task, a new call, or a
  move of one call.
-/

namespace Kyora.Calls

/-- The moves of the call `k` while the inbox is `i`. -/
inductive Moved (cfg : Inbox.Config) (k : Nat) (i : Inbox.State) :
    Label → Call → Inbox.State → Call → Prop where
  | idleSubscribe (shut : Bool) :
      Moved cfg k i (.advance k) (.idle shut .start) i (.idle shut (.subscribed i.version))
  | idlePark (shut : Bool) (seen : Nat) (hqueue : i.box.queue = [])
      (hmore : ¬ (i.box.awaiting = ∅ ∧ i.box.reserved = 0)) :
      Moved cfg k i (.advance k) (.idle shut (.subscribed seen)) i (.idle shut (.parked seen))
  | idleReturn (shut : Bool) (seen : Nat) {i' : Inbox.State} (batch : Option (List Envelope))
      (hinbox : Inbox.step cfg i (.idle shut) = some i') :
      Moved cfg k i (.advance k) (.idle shut (.subscribed seen)) i'
        (.idle shut (.returned batch))
  | receiveSubscribe :
      Moved cfg k i (.advance k) (.receive .start) i (.receive (.subscribed i.version))
  | receivePark (seen : Nat) {i' : Inbox.State}
      (hinbox : Inbox.step cfg i (.take .all) = some i') (hqueue : i'.box.queue = []) :
      Moved cfg k i (.advance k) (.receive (.subscribed seen)) i' (.receive (.parked seen))
  | receiveReturn (seen : Nat) {i' : Inbox.State} (taken : Option (List Envelope))
      (hinbox : Inbox.step cfg i (.take .all) = some i') :
      Moved cfg k i (.advance k) (.receive (.subscribed seen)) i' (.receive (.returned taken))
  | waitChildren (agents : Option (Finset NodeId)) :
      Moved cfg k i (.advance k) (.wait (.start agents)) i
        (.wait (.targeting agents (isChild i)))
  | waitTargets (agents : Option (Finset NodeId)) (children : NodeId → Bool)
      (targets : Finset NodeId) (htargets : ∀ c ∈ targets, children c = true) :
      Moved cfg k i (.advance k) (.wait (.targeting agents children)) i
        (.wait (.looping targets))
  | waitRefused (agents : Option (Finset NodeId)) (children : NodeId → Bool) :
      Moved cfg k i (.advance k) (.wait (.targeting agents children)) i (.wait .failed)
  | waitSubscribe (targets : Finset NodeId) :
      Moved cfg k i (.advance k) (.wait (.looping targets)) i
        (.wait (.staging targets i.version targets))
  | waitStage (targets : Finset NodeId) (seen : Nat) (todo : Finset NodeId) (c : NodeId)
      (id : Nat) (o : Inbox.Outcome) {i' : Inbox.State} (hc : c ∈ todo)
      (hout : i.outcome c = some o) (hinbox : Inbox.step cfg i (.stage o id) = some i') :
      Moved cfg k i (.target k c id) (.wait (.staging targets seen todo)) i'
        (.wait (.staging targets seen (todo.erase c)))
  | waitSkip (targets : Finset NodeId) (seen : Nat) (todo : Finset NodeId) (c : NodeId)
      (id : Nat) (hc : c ∈ todo) (hout : i.outcome c = none) :
      Moved cfg k i (.target k c id) (.wait (.staging targets seen todo)) i
        (.wait (.staging targets seen (todo.erase c)))
  | waitCheck (targets : Finset NodeId) (seen : Nat) :
      Moved cfg k i (.advance k) (.wait (.staging targets seen ∅)) i
        (.wait (.checking targets seen targets))
  | waitNext (targets : Finset NodeId) (seen : Nat) (todo : Finset NodeId) (c : NodeId)
      (id : Nat) (hc : c ∈ todo) (hfin : finished i c = true) :
      Moved cfg k i (.target k c id) (.wait (.checking targets seen todo)) i
        (.wait (.checking targets seen (todo.erase c)))
  | waitPark (targets : Finset NodeId) (seen : Nat) (todo : Finset NodeId) (c : NodeId)
      (id : Nat) (hc : c ∈ todo) (hfin : finished i c = false) :
      Moved cfg k i (.target k c id) (.wait (.checking targets seen todo)) i
        (.wait (.parked targets seen))
  | waitAll (targets : Finset NodeId) (seen : Nat) :
      Moved cfg k i (.advance k) (.wait (.checking targets seen ∅)) i
        (.wait (.filtering targets targets ∅))
  | waitKeep (targets todo done : Finset NodeId) (c : NodeId) (id : Nat) (hc : c ∈ todo)
      (hfin : finished i c = true) :
      Moved cfg k i (.target k c id) (.wait (.filtering targets todo done)) i
        (.wait (.filtering targets (todo.erase c) (insert c done)))
  | waitDrop (targets todo done : Finset NodeId) (c : NodeId) (id : Nat) (hc : c ∈ todo)
      (hfin : finished i c = false) :
      Moved cfg k i (.target k c id) (.wait (.filtering targets todo done)) i
        (.wait (.filtering targets (todo.erase c) done))
  | waitTake (targets done : Finset NodeId) :
      Moved cfg k i (.advance k) (.wait (.filtering targets ∅ done)) i
        (.wait (.taking targets done))
  | waitReturn (targets done : Finset NodeId) {box : Mailbox.State} {b : Mailbox.Batch}
      (htake : Mailbox.take i.box cfg.limits.deliveryChars (Inbox.Pick.test (.senders done))
        (Envelope.size cfg.names) = some (box, b)) :
      Moved cfg k i (.advance k) (.wait (.taking targets done)) (i.handOver cfg box b)
        (.wait (.returned ⟨b.taken, done, b.left, targets \ done⟩))
  | woken (c : Call) (seen : Nat) (hparked : c.parked = some seen) (hver : i.version ≠ seen) :
      Moved cfg k i (.woken k) c i c.again
  | timeout (c : Call) (seen : Nat) (hparked : c.parked = some seen) :
      Moved cfg k i (.timeout k) c i c.timedOut
  | cancelled (c c' : Call) (hcancel : c.cancelled = some c') :
      Moved cfg k i (.cancelled k) c i c'

/-- A step is a step of another task on the mailbox, a new call, or a move of
    one call. -/
theorem step_cases {cfg : Inbox.Config} {s t : State} {l : Label}
    (h : step cfg s l = some t) :
    (∃ l', l = .inbox l' ∧ Inbox.step cfg s.inbox l' = some t.inbox ∧ t.calls = s.calls) ∨
    (∃ k c, l = .call k c ∧ s.calls k = none ∧ c.isStart = true ∧ t = s.setCall k c) ∨
    (∃ k c c', s.calls k = some c ∧ t.calls = Function.update s.calls k (some c') ∧
      Moved cfg k s.inbox l c t.inbox c') := by
  cases l with
  | inbox l' =>
    obtain ⟨i, hi, rfl⟩ := Option.map_eq_some_iff.mp h
    exact Or.inl ⟨l', rfl, hi, rfl⟩
  | call k c =>
    simp only [step] at h
    split at h
    · next hnew =>
      obtain rfl := Option.some.inj h
      exact Or.inr (Or.inl ⟨k, c, rfl, hnew.1, hnew.2, rfl⟩)
    · cases h
  | advance k =>
    right; right
    simp only [step] at h
    split at h
    · next shut pc hk =>
      cases pc with
      | start =>
        obtain rfl := Option.some.inj h
        exact ⟨k, _, _, hk, rfl, .idleSubscribe shut⟩
      | subscribed seen =>
        obtain ⟨i, hi, h⟩ := Option.bind_eq_some_iff.mp h
        obtain ⟨⟨box, r⟩, hr, rfl⟩ := Option.map_eq_some_iff.mp h
        rcases Mailbox.idle_cases hr with
          ⟨-, b, rfl, -⟩ | ⟨-, -, -, rfl, -⟩ | ⟨hqueue, hmore, rfl, rfl⟩
        · exact ⟨k, _, _, hk, rfl, .idleReturn shut seen _ hi⟩
        · exact ⟨k, _, _, hk, rfl, .idleReturn shut seen _ hi⟩
        · -- Waiting changes nothing.
          have hsame : i = s.inbox := by
            simp only [Inbox.step, hr, Option.map_some, Option.some.injEq] at hi
            exact hi.symm
          subst hsame
          exact ⟨k, _, _, hk, rfl, .idlePark shut seen hqueue hmore⟩
      | parked seen => cases h
      | returned batch => cases h
    · next pc hk =>
      cases pc with
      | start =>
        obtain rfl := Option.some.inj h
        exact ⟨k, _, _, hk, rfl, .receiveSubscribe⟩
      | subscribed seen =>
        obtain ⟨i, hi, h⟩ := Option.bind_eq_some_iff.mp h
        obtain ⟨⟨box, b⟩, hr, rfl⟩ := Option.map_eq_some_iff.mp h
        refine ⟨k, _, _, hk, rfl, ?_⟩
        simp only
        split
        · exact .receiveReturn seen _ hi
        · split
          · exact .receiveReturn seen _ hi
          · split
            · exact .receiveReturn seen _ hi
            · next hqueued hclosed =>
              refine .receivePark seen hi ?_
              have hbox : i.box = box := by
                simp only [Inbox.step, hr, Option.map_some, Option.some.injEq] at hi
                rw [← hi]; rfl
              obtain ⟨-, rfl, rfl⟩ := Mailbox.take_eq_some.mp hr
              simp only [Nat.not_lt, Nat.le_zero, List.length_eq_zero_iff, gt_iff_lt] at hqueued
              show i.box.queue = []
              rw [hbox]
              exact hqueued
      | parked seen => cases h
      | returned taken => cases h
    · next pc hk =>
      cases pc with
      | start agents =>
        obtain rfl := Option.some.inj h
        exact ⟨k, _, _, hk, rfl, .waitChildren agents⟩
      | targeting agents children =>
        obtain rfl := Option.some.inj h
        refine ⟨k, _, _, hk, rfl, ?_⟩
        split
        · split
          · next hall => exact .waitTargets _ children _ hall
          · exact .waitRefused _ children
        · exact .waitTargets _ children _ fun c hc => (Finset.mem_filter.mp hc).2
      | looping targets =>
        obtain rfl := Option.some.inj h
        exact ⟨k, _, _, hk, rfl, .waitSubscribe targets⟩
      | staging targets seen todo =>
        simp only [stepWait] at h
        split at h
        · next htodo =>
          subst htodo
          obtain rfl := Option.some.inj h
          exact ⟨k, _, _, hk, rfl, .waitCheck targets seen⟩
        · cases h
      | checking targets seen todo =>
        simp only [stepWait] at h
        split at h
        · next htodo =>
          subst htodo
          obtain rfl := Option.some.inj h
          exact ⟨k, _, _, hk, rfl, .waitAll targets seen⟩
        · cases h
      | parked targets seen => cases h
      | filtering targets todo done =>
        simp only [stepWait] at h
        split at h
        · next htodo =>
          subst htodo
          obtain rfl := Option.some.inj h
          exact ⟨k, _, _, hk, rfl, .waitTake targets done⟩
        · cases h
      | taking targets done =>
        obtain ⟨i, hi, h⟩ := Option.bind_eq_some_iff.mp h
        obtain ⟨⟨box, b⟩, hr, rfl⟩ := Option.map_eq_some_iff.mp h
        have hinbox : i = s.inbox.handOver cfg box b := by
          simp only [Inbox.step, hr, Option.map_some, Option.some.injEq] at hi
          exact hi.symm
        subst hinbox
        exact ⟨k, _, _, hk, rfl, .waitReturn targets done hr⟩
      | returned waited => cases h
      | failed => cases h
    · cases h
  | target k c id =>
    right; right
    simp only [step] at h
    split at h
    · next pc hk =>
      cases pc with
      | staging targets seen todo =>
        simp only [visit] at h
        split at h
        · next hc =>
          obtain ⟨i, hi, rfl⟩ := Option.map_eq_some_iff.mp h
          refine ⟨k, _, _, hk, rfl, ?_⟩
          split at hi
          · next o hout => exact .waitStage targets seen todo c id o hc hout hi
          · next hout =>
            obtain rfl := Option.some.inj hi
            exact .waitSkip targets seen todo c id hc hout
        · cases h
      | checking targets seen todo =>
        simp only [visit] at h
        split at h
        · next hc =>
          obtain rfl := Option.some.inj h
          refine ⟨k, _, _, hk, rfl, ?_⟩
          split
          · next hfin => exact .waitNext targets seen todo c id hc hfin
          · next hfin =>
            exact .waitPark targets seen todo c id hc (by simpa using hfin)
        · cases h
      | filtering targets todo done =>
        simp only [visit] at h
        split at h
        · next hc =>
          obtain rfl := Option.some.inj h
          refine ⟨k, _, _, hk, rfl, ?_⟩
          split
          · next hfin => exact .waitKeep targets todo done c id hc hfin
          · next hfin =>
            exact .waitDrop targets todo done c id hc (by simpa using hfin)
        · cases h
      | _ => cases h
    · cases h
  | woken k =>
    right; right
    obtain ⟨c, hk, h⟩ := Option.bind_eq_some_iff.mp h
    obtain ⟨seen, hparked, h⟩ := Option.bind_eq_some_iff.mp h
    split at h
    · cases h
    · next hver =>
      obtain rfl := Option.some.inj h
      exact ⟨k, c, _, hk, rfl, .woken c seen hparked hver⟩
  | timeout k =>
    right; right
    obtain ⟨c, hk, h⟩ := Option.bind_eq_some_iff.mp h
    obtain ⟨seen, hparked, rfl⟩ := Option.map_eq_some_iff.mp h
    exact ⟨k, c, _, hk, rfl, .timeout c seen hparked⟩
  | cancelled k =>
    right; right
    obtain ⟨c, hk, h⟩ := Option.bind_eq_some_iff.mp h
    obtain ⟨c', hcancel, rfl⟩ := Option.map_eq_some_iff.mp h
    exact ⟨k, c, c', hk, rfl, .cancelled c c' hcancel⟩

/-- A move of a call changes the inbox by a step of its own, if at all. It
    publishes no outcome. -/
theorem Moved.task {cfg : Inbox.Config} {k : Nat} {i i' : Inbox.State} {l : Label}
    {c c' : Call} (h : Moved cfg k i l c i' c') :
    i' = i ∨ ∃ l', Inbox.step cfg i l' = some i' ∧ ∀ o, l' ≠ .publish o := by
  cases h with
  | idleReturn shut seen batch hinbox => exact Or.inr ⟨_, hinbox, by simp⟩
  | receivePark seen hinbox hqueue => exact Or.inr ⟨_, hinbox, by simp⟩
  | receiveReturn seen taken hinbox => exact Or.inr ⟨_, hinbox, by simp⟩
  | waitStage targets seen todo c id o hc hout hinbox => exact Or.inr ⟨_, hinbox, by simp⟩
  | waitReturn targets done htake =>
    refine Or.inr ⟨.take (.senders done), ?_, by simp⟩
    simp only [Inbox.step, htake, Option.map_some]
  | _ => exact Or.inl rfl

theorem Moved.inbox {cfg : Inbox.Config} {k : Nat} {i i' : Inbox.State} {l : Label}
    {c c' : Call} (h : Moved cfg k i l c i' c') :
    i' = i ∨ ∃ l', Inbox.step cfg i l' = some i' :=
  h.task.imp_right fun ⟨l', hl', _⟩ => ⟨l', hl'⟩

theorem step_inbox {cfg : Inbox.Config} {s t : State} {l : Label}
    (h : step cfg s l = some t) :
    t.inbox = s.inbox ∨ ∃ l', Inbox.step cfg s.inbox l' = some t.inbox := by
  rcases step_cases h with ⟨l', -, hi, -⟩ | ⟨k, c, -, -, -, rfl⟩ | ⟨k, c, c', -, -, hmove⟩
  · exact Or.inr ⟨l', hi⟩
  · exact Or.inl rfl
  · exact hmove.inbox

/-- The calls work on an inbox as its own tasks do. -/
theorem inbox_reachable {cfg : Inbox.Config} {s : State} (h : (calls cfg).Reachable s) :
    (Inbox.inbox cfg).Reachable s.inbox :=
  LTS.System.reachable_map State.inbox rfl (fun _ _ _ hstep => step_inbox hstep) s h

end Kyora.Calls
