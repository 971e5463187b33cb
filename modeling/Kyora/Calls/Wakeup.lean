import Kyora.Calls.Steps

/-! # No lost wakeup, and safe ends

  A parked call has seen the version of the watch channel at its last
  subscription. Every step that can make its condition true also announces a
  wake, so as long as the version did not change since, that wake is pending.
  An end of turn closes the mailbox only when nothing is queued, awaited or in
  flight, in the same step.
-/

namespace Kyora.Calls

/-! ### Conditions of parked calls -/

/-- The condition a parked call waits for. -/
def Call.ready (i : Inbox.State) : Call → Prop
  | .idle _ _ => i.box.queue ≠ [] ∨ (i.box.awaiting = ∅ ∧ i.box.reserved = 0)
  | .receive _ => i.box.queue ≠ []
  | .wait (.parked targets _) => ∀ c ∈ targets, finished i c = true
  | .wait _ => False

/-- The version a call has subscribed to. -/
def Call.seen : Call → Option Nat
  | .idle _ (.subscribed n) => some n
  | .idle _ (.parked n) => some n
  | .receive (.subscribed n) => some n
  | .receive (.parked n) => some n
  | .wait (.staging _ n _) => some n
  | .wait (.checking _ n _) => some n
  | .wait (.parked _ n) => some n
  | _ => none

/-- The agents a call waits for, or may choose from. -/
def Call.targets : Call → NodeId → Prop
  | .wait (.targeting _ children) => fun c => children c = true
  | .wait (.looping targets) => fun c => c ∈ targets
  | .wait (.staging targets _ _) => fun c => c ∈ targets
  | .wait (.checking targets _ _) => fun c => c ∈ targets
  | .wait (.parked targets _) => fun c => c ∈ targets
  | .wait (.filtering targets _ _) => fun c => c ∈ targets
  | .wait (.taking targets _) => fun c => c ∈ targets
  | _ => fun _ => False

theorem Call.seen_of_parked {c : Call} {n : Nat} (h : c.parked = some n) : c.seen = some n := by
  cases c with
  | idle shut pc => cases pc <;> first | exact h | cases h
  | receive pc => cases pc <;> first | exact h | cases h
  | wait pc => cases pc <;> first | exact h | cases h

theorem parked_of_isStart {c : Call} (h : c.isStart = true) : c.parked = none := by
  cases c with
  | idle shut pc => cases pc <;> first | rfl | cases h
  | receive pc => cases pc <;> first | rfl | cases h
  | wait pc => cases pc <;> first | rfl | cases h

/-- A call that notices a stop returns. -/
theorem parked_of_cancelled {c c' : Call} (h : c.cancelled = some c') : c'.parked = none := by
  cases c with
  | idle shut pc => cases pc <;> first | (obtain rfl := Option.some.inj h; rfl) | cases h
  | receive pc => cases pc <;> first | (obtain rfl := Option.some.inj h; rfl) | cases h
  | wait pc => cases pc <;> first | (obtain rfl := Option.some.inj h; rfl) | cases h

/-- The condition depends on the queue, the awaited agents, the reservations
    and the outcomes. -/
theorem ready_of_eq {i i' : Inbox.State} (hqueue : i'.box.queue = i.box.queue)
    (hawait : i'.box.awaiting = i.box.awaiting) (hres : i'.box.reserved = i.box.reserved)
    (hout : i'.outcome = i.outcome) {c : Call} (h : c.ready i') : c.ready i := by
  cases c with
  | idle shut pc =>
    unfold Call.ready at h ⊢
    rw [hqueue, hawait, hres] at h
    exact h
  | receive pc =>
    unfold Call.ready at h ⊢
    rw [hqueue] at h
    exact h
  | wait pc =>
    cases pc with
    | parked targets seen =>
      intro c hc
      have hfin := h c hc
      unfold finished Mailbox.isAwaiting at hfin ⊢
      rw [hout, hawait] at hfin
      exact hfin
    | _ => exact h

theorem finished_iff {i : Inbox.State} {c : NodeId} :
    finished i c = true ↔ (∃ o, i.outcome c = some o) ∧ c ∉ i.box.awaiting := by
  simp [finished, Mailbox.isAwaiting, Option.isSome_iff_exists]

/-! ### Flips -/

/-- A take leaves less in the queue and nothing else a call waits for. -/
theorem ready_of_take {cfg : Inbox.Config} {i : Inbox.State} {pick : Envelope → Bool}
    {box : Mailbox.State} {b : Mailbox.Batch}
    (htake : Mailbox.take i.box cfg.limits.deliveryChars pick (Envelope.size cfg.names) =
      some (box, b)) {c : Call} (h : c.ready (i.handOver cfg box b)) : c.ready i := by
  obtain ⟨-, rfl, rfl⟩ := Mailbox.take_eq_some.mp htake
  have hqueue : Mailbox.kept i.box cfg.limits.deliveryChars pick (Envelope.size cfg.names) ≠ [] →
      i.box.queue ≠ [] := by
    intro hkept hnil
    have hsub := Mailbox.kept_sublist i.box cfg.limits.deliveryChars pick
      (Envelope.size cfg.names)
    rw [hnil] at hsub
    exact hkept (List.sublist_nil.mp hsub)
  cases c with
  | idle shut pc => exact h.imp hqueue fun hnone => hnone
  | receive pc => exact hqueue h
  | wait pc =>
    cases pc with
    | parked targets seen => exact h
    | _ => exact h

/-- An agent whose phase changes without a published outcome on either side. -/
theorem outcome_of_phase {i : Inbox.State} {c : NodeId} {k k' : Inbox.Kid}
    (hkid : i.kids c = some k) (hk : k.phase.outcome = none) (hk' : k'.phase.outcome = none) :
    (i.setKid c k').outcome = i.outcome := by
  funext d
  rw [Inbox.outcome_setKid]
  split
  · next hd => rw [hd, hk', Inbox.State.outcome, hkid, Option.bind_some, hk]
  · rfl

/-- A step after which a parked call should go on, and before which it should
    not, announces a wake. -/
theorem wakes_of_ready {cfg : Inbox.Config} {i i' : Inbox.State} {l : Inbox.Label}
    (hn : i.notes.Sound) (hstep : Inbox.step cfg i l = some i') {c : Call}
    (htargets : ∀ x, c.targets x → isChild i x = true) (hbefore : ¬ c.ready i)
    (hafter : c.ready i') : i'.wakes = i.wakes ++ [i.nextOp] := by
  -- Steps that leave everything a call reads as it was.
  have hsame : i'.box.queue = i.box.queue → i'.box.awaiting = i.box.awaiting →
      i'.box.reserved = i.box.reserved → i'.outcome = i.outcome →
      i'.wakes = i.wakes ++ [i.nextOp] :=
    fun hq ha hr ho => absurd (ready_of_eq hq ha hr ho hafter) hbefore
  cases Inbox.fires_of_step hstep with
  | accepted e hplain hsender hopen hroom =>
    -- One more reservation keeps an idle call waiting.
    apply absurd _ hbefore
    cases c with
    | idle shut pc =>
      rcases hafter with hqueue | ⟨-, hres⟩
      · exact Or.inl hqueue
      · cases hres
    | receive pc => exact hafter
    | wait pc =>
      cases pc with
      | parked targets seen => exact hafter
      | _ => exact hafter
  | deliver e hmem hpost =>
    obtain ⟨-, -, -, -, -, -, -, hwakes, -⟩ := Inbox.post_flight hpost
    exact hwakes
  | register d kin hnew =>
    apply hsame rfl rfl rfl
    funext x
    rw [Inbox.outcome_setKid]
    split
    · next hx =>
      have hphase : (if kin = .node then Inbox.Phase.registered else .running).outcome = none := by
        split
        · rfl
        · rfl
      rw [hx, hphase, Inbox.State.outcome, hnew]
      rfl
    · rfl
  | expect d hkid => rfl
  | join d kin hkid => exact hsame rfl rfl rfl (outcome_of_phase hkid rfl rfl)
  | publish o kin hkid hjoined hkin =>
    -- The notice of a node-owned child is still awaited, and a deeper
    -- descendant is nobody's target.
    apply absurd _ hbefore
    cases c with
    | idle shut pc => exact hafter
    | receive pc => exact hafter
    | wait pc =>
      cases pc with
      | parked targets seen =>
        intro x hx
        have hfin := hafter x hx
        obtain ⟨⟨o', ho'⟩, hawait⟩ := finished_iff.mp hfin
        rw [Inbox.outcome_setKid] at ho'
        split at ho'
        · next hxo =>
          subst hxo
          exfalso
          cases kin with
          | node =>
            apply hawait
            exact (hn.awaiting o.node).mpr (Or.inl ⟨_, hkid, rfl⟩)
          | cell => exact hkin rfl
          | deeper =>
            have hchild := htargets o.node hx
            rw [isChild, hkid] at hchild
            cases hchild
        · exact finished_iff.mpr ⟨⟨o', ho'⟩, hawait⟩
      | _ => exact hafter
  | publishCell o hkid hjoined => rfl
  | notify d id o hkid hpost =>
    obtain ⟨-, -, -, -, -, -, -, hwakes, -⟩ := Inbox.post_flight hpost
    exact hwakes
  | staged o id hout hopen hawait hnew =>
    apply absurd _ hbefore
    cases c with
    | idle shut pc =>
      rcases hafter with hqueue | ⟨hnone, -⟩
      · exact Or.inl hqueue
      · cases Finset.insert_ne_empty _ _ hnone
    | receive pc => exact hafter
    | wait pc =>
      cases pc with
      | parked targets seen =>
        intro x hx
        obtain ⟨hpub, hnot⟩ := finished_iff.mp (hafter x hx)
        exact finished_iff.mpr ⟨hpub, fun hmem => hnot (Finset.mem_insert_of_mem hmem)⟩
      | _ => exact hafter
  | conclude e hmem hpost =>
    obtain ⟨-, -, -, -, -, -, -, hwakes, -⟩ := Inbox.post_flight hpost
    exact hwakes
  | take pick htake => exact absurd (ready_of_take htake hafter) hbefore
  | idleDeliver shut hqueue htake => exact absurd (ready_of_take htake hafter) hbefore
  | close => rfl
  | charged o hfit => exact hsame rfl rfl rfl (Inbox.outcome_of_kids rfl)
  | _ => exact hsame rfl rfl rfl rfl

/-! ### Calls in progress -/

/-- The targets a loop has not visited yet. -/
def Call.todo : Call → Finset NodeId
  | .wait (.staging _ _ todo) => todo
  | .wait (.checking _ _ todo) => todo
  | .wait (.filtering _ todo _) => todo
  | _ => ∅

/-- What a call may rely on: it has seen no version that is still to come, and
    it visits children of its agent only. -/
structure Call.Sound (i : Inbox.State) (c : Call) : Prop where
  seen : ∀ n, c.seen = some n → n ≤ i.version
  children : ∀ x, c.targets x → isChild i x = true
  todo : ∀ x ∈ c.todo, c.targets x

theorem isChild_eq_true {i : Inbox.State} {x : NodeId} :
    isChild i x = true ↔ ∃ k, i.kids x = some k ∧ k.kin ≠ .deeper := by
  unfold isChild
  cases hk : i.kids x with
  | none => simp
  | some k => simp

theorem isChild_step {cfg : Inbox.Config} {i i' : Inbox.State} {l : Inbox.Label}
    (h : Inbox.step cfg i l = some i') {x : NodeId} (hx : isChild i x = true) :
    isChild i' x = true := by
  obtain ⟨k, hk, hkin⟩ := isChild_eq_true.mp hx
  obtain ⟨k', hk', heq⟩ := Inbox.kin_step h hk
  rw [← heq] at hkin
  exact isChild_eq_true.mpr ⟨k', hk', hkin⟩

theorem version_step {cfg : Inbox.Config} {i i' : Inbox.State} {l : Inbox.Label}
    (h : Inbox.step cfg i l = some i') : i.version ≤ i'.version := by
  rcases Inbox.wakes_step h with ⟨hv, -⟩ | ⟨hv, -⟩ | ⟨hv, -⟩
  · omega
  · omega
  · omega

theorem Call.Sound.step {cfg : Inbox.Config} {i i' : Inbox.State} {c : Call}
    (h : c.Sound i) (hinbox : i' = i ∨ ∃ l, Inbox.step cfg i l = some i') : c.Sound i' := by
  rcases hinbox with rfl | ⟨l, hl⟩
  · exact h
  · refine ⟨fun n hn => ?_, fun x hx => isChild_step hl (h.children x hx), h.todo⟩
    have hseen := h.seen n hn
    have hversion := version_step hl
    omega

/-- A call that has subscribed to nothing and has no targets. -/
theorem Call.Sound.of_none {i : Inbox.State} {c : Call} (hseen : c.seen = none)
    (htargets : ∀ x, ¬ c.targets x) (htodo : c.todo = ∅) : c.Sound i := by
  refine ⟨fun n hn => ?_, fun x hx => absurd hx (htargets x), fun x hx => ?_⟩
  · rw [hseen] at hn
    cases hn
  · rw [htodo] at hx
    exact absurd hx (Finset.notMem_empty x)

theorem Call.Sound.idle {i : Inbox.State} {shut : Bool} {pc : IdlePc}
    (hseen : ∀ n, (Call.idle shut pc).seen = some n → n ≤ i.version) :
    (Call.idle shut pc).Sound i :=
  ⟨hseen, fun _ hx => hx.elim, fun x hx => absurd hx (Finset.notMem_empty x)⟩

theorem Call.Sound.receive {i : Inbox.State} {pc : ReceivePc}
    (hseen : ∀ n, (Call.receive pc).seen = some n → n ≤ i.version) :
    (Call.receive pc).Sound i :=
  ⟨hseen, fun _ hx => hx.elim, fun x hx => absurd hx (Finset.notMem_empty x)⟩

/-- A call keeps its targets until it returns. -/
theorem Call.Sound.moved {cfg : Inbox.Config} {k : Nat} {i i' : Inbox.State} {l : Label}
    {c c' : Call} (h : c.Sound i) (hmove : Moved cfg k i l c i' c') : c'.Sound i' := by
  have hold := h.step hmove.inbox
  -- What is left to visit is a part of the targets.
  have hsub : ∀ {targets todo : Finset NodeId} {x y : NodeId},
      (∀ z ∈ todo, z ∈ targets) → y ∈ todo.erase x → y ∈ targets :=
    fun hall hy => hall _ (Finset.mem_of_mem_erase hy)
  cases hmove with
  | idleSubscribe shut => exact .idle fun n hn => Nat.le_of_eq (Option.some.inj hn).symm
  | idlePark shut seen hqueue hmore => exact .idle hold.seen
  | idleReturn shut seen batch hinbox => exact .idle fun n hn => by cases hn
  | receiveSubscribe => exact .receive fun n hn => Nat.le_of_eq (Option.some.inj hn).symm
  | receivePark seen hinbox hqueue => exact .receive hold.seen
  | receiveReturn seen taken hinbox => exact .receive fun n hn => by cases hn
  | waitChildren agents =>
    exact ⟨(fun n hn => by cases hn), fun x hx => hx, fun x hx => absurd hx (Finset.notMem_empty x)⟩
  | waitTargets agents children targets htargets =>
    exact ⟨(fun n hn => by cases hn), fun x hx => hold.children x (htargets x hx),
      fun x hx => absurd hx (Finset.notMem_empty x)⟩
  | waitRefused agents children => exact .of_none rfl (fun x hx => hx) rfl
  | waitSubscribe targets =>
    exact ⟨fun n hn => Nat.le_of_eq (Option.some.inj hn).symm, hold.children, fun x hx => hx⟩
  | waitStage targets seen todo c id o hc hout hinbox =>
    exact ⟨hold.seen, hold.children, fun x hx => hsub hold.todo hx⟩
  | waitSkip targets seen todo c id hc hout =>
    exact ⟨hold.seen, hold.children, fun x hx => hsub hold.todo hx⟩
  | waitCheck targets seen => exact ⟨hold.seen, hold.children, fun x hx => hx⟩
  | waitNext targets seen todo c id hc hfin =>
    exact ⟨hold.seen, hold.children, fun x hx => hsub hold.todo hx⟩
  | waitPark targets seen todo c id hc hfin =>
    exact ⟨hold.seen, hold.children, fun x hx => absurd hx (Finset.notMem_empty x)⟩
  | waitAll targets seen => exact ⟨(fun n hn => by cases hn), hold.children, fun x hx => hx⟩
  | waitKeep targets todo done c id hc hfin =>
    exact ⟨(fun n hn => by cases hn), hold.children, fun x hx => hsub hold.todo hx⟩
  | waitDrop targets todo done c id hc hfin =>
    exact ⟨(fun n hn => by cases hn), hold.children, fun x hx => hsub hold.todo hx⟩
  | waitTake targets done =>
    exact ⟨(fun n hn => by cases hn), hold.children,
      fun x hx => absurd hx (Finset.notMem_empty x)⟩
  | waitReturn targets done htake => exact .of_none rfl (fun x hx => hx) rfl
  | woken c seen hparked hver =>
    cases c with
    | idle shut pc => exact .of_none rfl (fun x hx => hx) rfl
    | receive pc => exact .of_none rfl (fun x hx => hx) rfl
    | wait pc =>
      cases pc with
      | parked targets seen =>
        exact ⟨(fun n hn => by cases hn), hold.children,
          fun x hx => absurd hx (Finset.notMem_empty x)⟩
      | _ => exact hold
  | timeout c seen hparked =>
    cases c with
    | idle shut pc => exact .of_none rfl (fun x hx => hx) rfl
    | receive pc => exact .of_none rfl (fun x hx => hx) rfl
    | wait pc =>
      cases pc with
      | parked targets seen => exact ⟨(fun n hn => by cases hn), hold.children, fun x hx => hx⟩
      | _ => exact hold
  | cancelled c c' hcancel =>
    -- Every call that notices it ends there.
    have hend : ∀ d : Call, d.seen = none → (∀ x, ¬ d.targets x) → d.todo = ∅ →
        some d = some c' → c'.Sound i := by
      intro d hseen htargets htodo hd
      rw [← Option.some.inj hd]
      exact .of_none hseen htargets htodo
    cases c with
    | idle shut pc =>
      cases pc with
      | parked seen => exact hend (.idle shut (.returned none)) rfl (fun x hx => hx) rfl hcancel
      | _ => cases hcancel
    | receive pc =>
      cases pc with
      | subscribed seen => exact hend (.receive (.returned none)) rfl (fun x hx => hx) rfl hcancel
      | parked seen => exact hend (.receive (.returned none)) rfl (fun x hx => hx) rfl hcancel
      | _ => cases hcancel
    | wait pc =>
      cases pc with
      | looping targets => exact hend (.wait .failed) rfl (fun x hx => hx) rfl hcancel
      | staging targets seen todo => exact hend (.wait .failed) rfl (fun x hx => hx) rfl hcancel
      | parked targets seen => exact hend (.wait .failed) rfl (fun x hx => hx) rfl hcancel
      | taking targets done => exact hend (.wait .failed) rfl (fun x hx => hx) rfl hcancel
      | _ => cases hcancel

theorem Call.Sound.start {i : Inbox.State} {c : Call} (h : c.isStart = true) : c.Sound i := by
  cases c with
  | idle shut pc =>
    cases pc with
    | start => exact .of_none rfl (fun x hx => hx) rfl
    | _ => cases h
  | receive pc =>
    cases pc with
    | start => exact .of_none rfl (fun x hx => hx) rfl
    | _ => cases h
  | wait pc =>
    cases pc with
    | start agents => exact .of_none rfl (fun x hx => hx) rfl
    | _ => cases h

/-- All calls in progress are sound. -/
def State.CallsSound (s : State) : Prop := ∀ k c, s.calls k = some c → c.Sound s.inbox

theorem callsSound_step {cfg : Inbox.Config} {s t : State} {l : Label} (h : s.CallsSound)
    (hstep : step cfg s l = some t) : t.CallsSound := by
  intro j d hd
  rcases step_cases hstep with
    ⟨l', -, hi, hcalls⟩ | ⟨k, c, -, hnone, hstart, rfl⟩ | ⟨k, c, c', hk, hcalls, hmove⟩
  · rw [hcalls] at hd
    exact (h j d hd).step (Or.inr ⟨l', hi⟩)
  · by_cases hj : j = k
    · subst hj
      simp only [State.setCall, Function.update_self, Option.some.injEq] at hd
      rw [← hd]
      exact .start hstart
    · simp only [State.setCall, Function.update_of_ne hj] at hd
      exact h j d hd
  · rw [hcalls] at hd
    by_cases hj : j = k
    · subst hj
      rw [Function.update_self, Option.some.injEq] at hd
      rw [← hd]
      exact (h j c hk).moved hmove
    · rw [Function.update_of_ne hj] at hd
      exact (h j d hd).step hmove.inbox

theorem callsSound_of_reachable {cfg : Inbox.Config} {s : State}
    (h : (calls cfg).Reachable s) : s.CallsSound :=
  LTS.System.invariant (P := State.CallsSound) (fun _ _ hc => by cases hc)
    (fun _ _ _ hs _ hstep => callsSound_step hs hstep) s h

/-! ### No lost wakeup -/

/-- The step that made the condition of call `k` true is in the run, and has
    yet to perform its wake. -/
def Pending (cfg : Inbox.Config) (ls : List Label) (s : State) (k : Nat) (c : Call) : Prop :=
  ∃ ls₁ l ls₂ s₁ s₂, ls = ls₁ ++ l :: ls₂ ∧
    (calls cfg).run (calls cfg).init ls₁ = some s₁ ∧ step cfg s₁ l = some s₂ ∧
    (calls cfg).run s₂ ls₂ = some s ∧ s₁.calls k = some c ∧ s₂.calls k = some c ∧
    ¬ c.ready s₁.inbox ∧ c.ready s₂.inbox ∧
    -- The wake it announces is a new one, and it is still to come.
    s₁.inbox.nextOp ∉ s₁.inbox.wakes ∧
    s₂.inbox.wakes = s₁.inbox.wakes ++ [s₁.inbox.nextOp] ∧
    s₁.inbox.nextOp ∈ s.inbox.wakes

/-- A call that has just parked is not ready. -/
theorem not_ready_of_moved {cfg : Inbox.Config} {k : Nat} {i i' : Inbox.State} {l : Label}
    {c c' : Call} (hc : c.Sound i) (h : Moved cfg k i l c i' c') {n : Nat}
    (hparked : c'.parked = some n) : ¬ c'.ready i' := by
  cases h with
  | idlePark shut seen hqueue hmore =>
    rintro (hready | hready)
    · exact hready hqueue
    · exact hmore hready
  | receivePark seen hinbox hqueue => exact fun hready => hready hqueue
  | waitPark targets seen todo x id hx hfin =>
    intro hready
    have htrue := hready x (hc.todo x hx)
    rw [hfin] at htrue
    cases htrue
  | woken c seen hp hver =>
    cases c with
    | idle shut pc => cases hparked
    | receive pc => cases hparked
    | wait pc =>
      cases pc with
      | parked targets seen => cases hparked
      | _ => cases hp
  | timeout c seen hp =>
    cases c with
    | idle shut pc => cases hparked
    | receive pc => cases hparked
    | wait pc =>
      cases pc with
      | parked targets seen => cases hparked
      | _ => cases hp
  | cancelled c c' hcancel =>
    rw [parked_of_cancelled hcancel] at hparked
    cases hparked
  | _ => cases hparked

/-- One step from a state without lost wakeups: the call was parked before,
    or it has just parked. -/
theorem pending_step {cfg : Inbox.Config} {ls : List Label} {s t : State} {l : Label}
    (hrun : (calls cfg).run (calls cfg).init ls = some s)
    (hold : ∀ k c n, s.calls k = some c → c.parked = some n → s.inbox.version = n →
      c.ready s.inbox → Pending cfg ls s k c)
    (hstep : step cfg s l = some t) {k : Nat} {c : Call} {n : Nat}
    (hk : t.calls k = some c) (hparked : c.parked = some n) (hver : t.inbox.version = n)
    (hready : c.ready t.inbox) : Pending cfg (ls ++ [l]) t k c := by
  have hs := LTS.System.reachable_of_run hrun
  have hcalls := callsSound_of_reachable hs
  have hinbox := inbox_reachable hs
  -- The call was parked before this step, unless it made the step itself.
  have hbefore : s.calls k = some c := by
    rcases step_cases hstep with
      ⟨l', -, -, heq⟩ | ⟨j, d, -, -, hstart, rfl⟩ | ⟨j, d, d', hj, heq, hmove⟩
    · rw [← heq]
      exact hk
    · by_cases hjk : k = j
      · subst hjk
        simp only [State.setCall, Function.update_self, Option.some.injEq] at hk
        subst hk
        rw [parked_of_isStart hstart] at hparked
        cases hparked
      · simpa only [State.setCall, Function.update_of_ne hjk] using hk
    · rw [heq] at hk
      by_cases hjk : k = j
      · subst hjk
        rw [Function.update_self, Option.some.injEq] at hk
        subst hk
        exact absurd hready (not_ready_of_moved (hcalls k d hj) hmove hparked)
      · rwa [Function.update_of_ne hjk] at hk
  have hsound := hcalls k c hbefore
  have hseen := hsound.seen n (Call.seen_of_parked hparked)
  rcases step_inbox hstep with hsame | ⟨l', hl'⟩
  · -- Another call moved without touching the inbox.
    rw [hsame] at hready hver
    obtain ⟨ls₁, l₀, ls₂, s₁, s₂, hls, hrun₁, hst, hrun₂, hrest⟩ :=
      hold k c n hbefore hparked hver hready
    refine ⟨ls₁, l₀, ls₂ ++ [l], s₁, s₂, by rw [hls]; simp, hrun₁, hst,
      (calls cfg).run_snoc hrun₂ hstep, ?_⟩
    rw [hsame]
    exact hrest
  · have hle := version_step hl'
    by_cases hwas : c.ready s.inbox
    · obtain ⟨ls₁, l₀, ls₂, s₁, s₂, hls, hrun₁, hst, hrun₂, hk₁, hk₂, hno, hyes, hnew, hann,
        hop⟩ := hold k c n hbefore hparked (by omega) hwas
      refine ⟨ls₁, l₀, ls₂ ++ [l], s₁, s₂, by rw [hls]; simp, hrun₁, hst,
        (calls cfg).run_snoc hrun₂ hstep, hk₁, hk₂, hno, hyes, hnew, hann, ?_⟩
      -- No wake was performed, or the version would be a newer one.
      rcases Inbox.wakes_step hl' with ⟨-, -, hw⟩ | ⟨-, -, hw⟩ | ⟨hv, -⟩
      · rw [hw]
        exact hop
      · rw [hw]
        exact List.mem_append_left _ hop
      · omega
    · have hw := wakes_of_ready (Inbox.notes_of_reachable hinbox) hl' hsound.children hwas hready
      refine ⟨ls, l, [], s, t, rfl, hrun, hstep, rfl, hbefore, hk, hwas, hready, ?_, hw, ?_⟩
      · intro hmem
        exact absurd (Inbox.wakes_of_reachable hinbox _ hmem) (Nat.lt_irrefl _)
      · rw [hw]
        exact List.mem_append_right _ (List.mem_singleton_self _)

/-- By induction on the run: the last step is the one that made the condition
    true, or it leaves the pending wake alone. -/
theorem pending_of_run {cfg : Inbox.Config} : ∀ ls s,
    (calls cfg).run (calls cfg).init ls = some s → ∀ k c n, s.calls k = some c →
      c.parked = some n → s.inbox.version = n → c.ready s.inbox → Pending cfg ls s k c := by
  apply LTS.System.run_induction
  · intro k c n hk
    cases hk
  · intro ls s l t hrun hold hstep k c n hk hparked hver hready
    exact pending_step hrun hold hstep hk hparked hver hready

/-! ### Safe ends -/

/-- What holds when an end of turn is `Done` in `s`, leaving the mailbox as
    `box`. -/
structure Ended (cfg : Inbox.Config) (s : State) (box : Mailbox.State) : Prop where
  queue : s.inbox.box.queue = []
  awaiting : s.inbox.box.awaiting = ∅
  /-- No node-owned child still owes its notice. -/
  children : ∀ c p, s.inbox.kids c = some ⟨.node, p⟩ → p.awaited = false
  /-- No accepted send and no staged notice is on its way. -/
  sending : s.inbox.sending = []
  staged : s.inbox.staged = []
  /-- Every message that was accepted has been handed over. -/
  handed : s.inbox.box.closed = false → s.inbox.pushed.Perm s.inbox.delivered
  /-- The answer and the closing are one step. -/
  closed : box.closed = true
  /-- Whatever runs afterwards, nothing is accepted again. -/
  sealed : ∀ ls t, (calls cfg).run { s with inbox := { s.inbox with box } } ls = some t →
    t.inbox.box.closed = true ∧ t.inbox.sending = [] ∧
      Mailbox.reserve t.inbox.box cfg.limits.mailboxCapacity = .error .closed

/-- A closed mailbox without sends in flight stays so. -/
theorem sealed_run {cfg : Inbox.Config} {s t : State} {ls : List Label}
    (hs : (calls cfg).Reachable s) (hclosed : s.inbox.box.closed = true)
    (hsending : s.inbox.sending = []) (hrun : (calls cfg).run s ls = some t) :
    t.inbox.box.closed = true ∧ t.inbox.sending = [] := by
  have hall : (calls cfg).Reachable t ∧ t.inbox.box.closed = true ∧ t.inbox.sending = [] := by
    refine (calls cfg).run_invariant
      (P := fun s => (calls cfg).Reachable s ∧ s.inbox.box.closed = true ∧ s.inbox.sending = [])
      (fun s l t hs hstep => ⟨hs.1.next hstep, ?_⟩) ⟨hs, hclosed, hsending⟩ hrun
    rcases step_inbox hstep with hsame | ⟨l', hl'⟩
    · rw [hsame]
      exact hs.2
    · have hk := Inbox.kinds_of_reachable (inbox_reachable hs.1)
      exact (Inbox.mail_step hk hl').sealed hs.2.1 hs.2.2
  exact hall.2

theorem ended_of_done {cfg : Inbox.Config} {s : State} (hs : (calls cfg).Reachable s)
    {box : Mailbox.State}
    (h : Mailbox.idle s.inbox.box true cfg.limits.deliveryChars (Envelope.size cfg.names) =
      some (box, .done)) : Ended cfg s box := by
  have hi := inbox_reachable hs
  have hn := Inbox.notes_of_reachable hi
  have hm := Inbox.sound_of_reachable hi
  obtain ⟨hqueue, hawait, hres, rfl⟩ : s.inbox.box.queue = [] ∧ s.inbox.box.awaiting = ∅ ∧
      s.inbox.box.reserved = 0 ∧
      box = { s.inbox.box with closed := s.inbox.box.closed || true } := by
    rcases Mailbox.idle_cases h with
      ⟨-, b, hb, -⟩ | ⟨hqueue, hawait, hres, -, hbox⟩ | ⟨-, -, hw, -⟩
    · cases hb
    · exact ⟨hqueue, hawait, hres, hbox⟩
    · cases hw
  have hnone : ∀ c, c ∉ s.inbox.notes.awaiting := by
    intro c
    show c ∉ s.inbox.box.awaiting
    rw [hawait]
    exact Finset.notMem_empty c
  -- Each send in flight holds a reservation, each staged notice is awaited.
  have hsending : s.inbox.sending = [] := by
    apply List.eq_nil_of_length_eq_zero
    rw [← show s.inbox.box.reserved = s.inbox.sending.length from hm.reserved]
    exact hres
  have hstaged : s.inbox.staged = [] := by
    rw [List.eq_nil_iff_forall_not_mem]
    intro e he
    exact hnone e.from_ ((hn.awaiting e.from_).mpr (Or.inr (List.mem_map_of_mem he)))
  have hclosed : (s.inbox.box.closed || true) = true := Bool.or_true _
  refine ⟨hqueue, hawait, fun c p hkid => ?_, hsending, hstaged, fun hopen => ?_, hclosed,
    fun ls t hrun => ?_⟩
  · rw [← Bool.not_eq_true]
    intro hp
    exact hnone c ((hn.awaiting c).mpr (Or.inl ⟨p, hkid, hp⟩))
  · have honce : s.inbox.pushed.Perm
        (s.inbox.delivered ++ s.inbox.undelivered ++ s.inbox.box.queue) := hm.once
    have hkept : s.inbox.undelivered = [] := hm.kept hopen
    rw [hkept, hqueue, List.append_nil, List.append_nil] at honce
    exact honce
  · -- The end of the turn is a step of the inbox.
    have hend : (calls cfg).step s (.inbox (.idle true)) = some { s with
        inbox := { s.inbox with
          box := { s.inbox.box with closed := s.inbox.box.closed || true } } } := by
      simp only [calls, step, Inbox.step, h, Option.map_some]
    obtain ⟨hshut, hquiet⟩ := sealed_run (hs.next hend) hclosed hsending hrun
    refine ⟨hshut, hquiet, ?_⟩
    unfold Mailbox.reserve
    rw [hshut]
    rfl

/-- What holds of the waiting calls of an agent after the run `ls`. -/
structure SafeIdle (cfg : Inbox.Config) (ls : List Label) (s : State) : Prop where
  done : ∀ box,
    Mailbox.idle s.inbox.box true cfg.limits.deliveryChars (Envelope.size cfg.names) =
      some (box, .done) → Ended cfg s box
  /-- With messages queued an idle agent is handed some of them. -/
  delivers : s.inbox.box.queue ≠ [] → ∀ shut, ∃ box b,
    Mailbox.idle s.inbox.box shut cfg.limits.deliveryChars (Envelope.size cfg.names) =
      some (box, .deliver b)
  /-- A parked call that has seen no newer version would park again, or the
      wake of the step that made its condition true is still to come. -/
  parked : ∀ k c n, s.calls k = some c → c.parked = some n → s.inbox.version = n →
    ¬ c.ready s.inbox ∨ Pending cfg ls s k c

/-- An end of turn strands nothing, and no parked call misses its wake. -/
theorem safe_idle (cfg : Inbox.Config) {ls : List Label} {s : State}
    (hrun : (calls cfg).run (calls cfg).init ls = some s) : SafeIdle cfg ls s := by
  have hs := LTS.System.reachable_of_run hrun
  refine ⟨fun box => ended_of_done hs, fun hqueue shut => ?_, fun k c n hk hparked hver => ?_⟩
  · have hm := Inbox.sound_of_reachable (inbox_reachable hs)
    obtain ⟨⟨box, b⟩, htake⟩ := @Mailbox.take_isSome s.inbox.box cfg.limits.deliveryChars
      (fun _ => true) (Envelope.size cfg.names) (Nat.le_of_eq hm.plain.symm)
    refine ⟨box, b, ?_⟩
    unfold Mailbox.idle
    rw [if_pos (by simpa using hqueue), htake]
    rfl
  · by_cases hready : c.ready s.inbox
    · exact Or.inr (pending_of_run ls s hrun k c n hk hparked hver hready)
    · exact Or.inl hready

/-- An agent that parks at the end of its turn while its child runs; the
    child's notice is queued and its wake is still to come. -/
def parkedLabels : List Label :=
  [.inbox (.register 2 .node), .inbox (.expect 2), .inbox (.wake 0),
    .call 0 (.idle true .start), .advance 0, .advance 0,
    .inbox (.join 2), .inbox (.publish ⟨2, .completed, "done"⟩), .inbox (.notify 2 0)]

theorem safe_idle_parked : ∃ s,
    (calls Inbox.defaultConfig).run (calls Inbox.defaultConfig).init parkedLabels = some s ∧
      (s.calls 0).bind Call.parked = some s.inbox.version ∧ s.inbox.wakes = [1] ∧
      SafeIdle Inbox.defaultConfig parkedLabels s := by
  have hrun : ((calls Inbox.defaultConfig).run (calls Inbox.defaultConfig).init
      parkedLabels).map (fun s => ((s.calls 0).bind Call.parked, s.inbox.version,
        s.inbox.wakes)) = some (some 1, 1, [1]) := by decide +kernel
  obtain ⟨s, hs, heq⟩ := Option.map_eq_some_iff.mp hrun
  simp only [Prod.mk.injEq] at heq
  exact ⟨s, hs, by rw [heq.1, heq.2.1], heq.2.2, safe_idle Inbox.defaultConfig hs⟩

end Kyora.Calls
