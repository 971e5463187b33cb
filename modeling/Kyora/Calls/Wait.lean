import Kyora.Calls.Wakeup

/-! # What a wait reports

  `wait_via` stages a terminal entry for each target of a cell whose outcome is
  published when its loop comes by, and reports every target that is finished
  when the loop is over. A cell-owned child that publishes in between is
  reported without an entry. A run that avoids this reports children only
  whose entry was pushed before.
-/

namespace Kyora.Calls

/-! ### Reports -/

/-- What a wait promises when its final take leads from `i` to `i'`. -/
structure Reported (i i' : Inbox.State) (w : Waited) : Prop where
  /-- A child that is reported has a terminal entry in the mailbox before the
      take, and it is among the messages, or was handed over, or is queued. -/
  finished : ∀ c ∈ w.finished, ∃ e ∈ i.pushed, e.plain = false ∧ e.from_ = c ∧
    (e ∈ w.messages ∨ e ∈ i.delivered ∨ e ∈ i'.box.queue)
  /-- What a deferred child has left in the queue ends with its entry. -/
  deferred : ∀ c ∈ w.deferred, ∃ e,
    (Inbox.ofSender c i'.box.queue).getLast? = some e ∧ e.plain = false

/-- Call `k` returned `w` in the run `ls`, and kept its promise there. -/
def ReportedIn (cfg : Inbox.Config) (ls : List Label) (s : State) (k : Nat) (w : Waited) :
    Prop :=
  ∃ ls₁ ls₂ s₁ s₂, ls = ls₁ ++ .advance k :: ls₂ ∧
    (calls cfg).run (calls cfg).init ls₁ = some s₁ ∧
    step cfg s₁ (.advance k) = some s₂ ∧ (calls cfg).run s₂ ls₂ = some s ∧
    s₂.calls k = some (.wait (.returned w)) ∧ Reported s₁.inbox s₂.inbox w

/-! ### Where the report goes wrong -/

/-- A child of one of the agent's cells, which posts no notice of its own. -/
def cellOwned (i : Inbox.State) (c : NodeId) : Bool :=
  match i.kids c with
  | some k => k.kin == .cell
  | none => false

theorem cellOwned_of_kid {i : Inbox.State} {c : NodeId} {k : Inbox.Kid}
    (h : i.kids c = some k) : cellOwned i c = (k.kin == .cell) := by
  unfold cellOwned
  rw [h]

/-- Every cell-owned target whose outcome can be read has been staged. -/
def Settled (i : Inbox.State) (targets : Finset NodeId) : Prop :=
  ∀ c ∈ targets, cellOwned i c = true → i.outcome c ≠ none →
    Mailbox.isConcluded i.box c = true

/-- The steps after which a report can be trusted: a wait leaves its loop only
    with settled targets, no cell-owned target publishes between the loop and
    the filter, and the final take finds the mailbox open. -/
def Guarded (s : State) : Label → Prop
  | .advance k =>
    match s.calls k with
    | some (.wait (.checking targets _ _)) => Settled s.inbox targets
    | some (.wait (.taking _ _)) => s.inbox.box.closed = false
    | _ => True
  | .timeout k =>
    match s.calls k with
    | some (.wait (.parked targets _)) => Settled s.inbox targets
    | _ => True
  | .inbox (.publish o) =>
    ∀ k targets todo done, s.calls k = some (.wait (.filtering targets todo done)) →
      o.node ∈ todo → cellOwned s.inbox o.node = false
  | _ => True

/-! ### Trusted calls -/

/-- What a wait has made sure of by the time it filters its targets. -/
def Call.Trusted (i : Inbox.State) : Call → Prop
  | .wait (.filtering _ todo done) => Settled i todo ∧ ∀ c ∈ done, c ∈ i.notes.posted
  | .wait (.taking _ done) => ∀ c ∈ done, c ∈ i.notes.posted
  | _ => True

/-- A finished child has a terminal entry in the mailbox, if it is staged
    whenever it is cell-owned. -/
theorem posted_of_finished {i : Inbox.State} (hn : i.notes.Sound) {c : NodeId}
    (hchild : isChild i c = true) (hfin : finished i c = true)
    (hcell : cellOwned i c = true → Mailbox.isConcluded i.box c = true) :
    c ∈ i.notes.posted := by
  obtain ⟨⟨o, ho⟩, hawait⟩ := finished_iff.mp hfin
  obtain ⟨k, hkid, hphase⟩ := Inbox.State.outcome_eq_some.mp ho
  obtain ⟨k', hk', hkin⟩ := isChild_eq_true.mp hchild
  obtain rfl : k' = k := Option.some.inj (hk'.symm.trans hkid)
  obtain ⟨kin, p⟩ := k'
  cases kin with
  | node =>
    -- Its notice was pushed, or it would be awaited.
    cases p with
    | ended o' => exact (hn.node c _ hkid).2.mpr ⟨o', rfl⟩
    | published o' =>
      exfalso
      apply hawait
      exact (hn.awaiting c).mpr (Or.inl ⟨_, hkid, rfl⟩)
    | _ => cases hphase
  | cell =>
    have hstaged : Mailbox.isConcluded i.box c = true := by
      apply hcell
      rw [cellOwned_of_kid hkid]
      rfl
    have hmem := (hn.concluded c).mp (of_decide_eq_true hstaged)
    rcases List.mem_append.mp hmem with hposted | hrec
    · exact hposted
    · exact absurd ((hn.awaiting c).mpr (Or.inr hrec)) hawait
  | deeper => exact absurd rfl hkin

/-- Targets stay settled unless a cell-owned one publishes. -/
theorem Settled.step {cfg : Inbox.Config} {i i' : Inbox.State} {l : Inbox.Label}
    (hk : Inbox.Kinds i) {targets : Finset NodeId} (h : Settled i targets)
    (hchildren : ∀ c ∈ targets, isChild i c = true) (hstep : Inbox.step cfg i l = some i')
    (hquiet : ∀ o, l = .publish o → o.node ∈ targets → cellOwned i o.node = false) :
    Settled i' targets := by
  intro c hc hcell hout
  obtain ⟨o, ho⟩ := Option.ne_none_iff_exists'.mp hout
  -- Who owns the target was settled when it was registered.
  have hcell' : cellOwned i c = true := by
    obtain ⟨k, hkid, -⟩ := isChild_eq_true.mp (hchildren c hc)
    obtain ⟨k', hkid', hkin⟩ := Inbox.kin_step hstep hkid
    rw [cellOwned_of_kid hkid', hkin] at hcell
    rw [cellOwned_of_kid hkid]
    exact hcell
  rcases Inbox.outcome_new hstep ho with hold | ⟨hl, hnode⟩
  · have hbefore := h c hc hcell' (by rw [hold]; exact Option.some_ne_none o)
    have hmono := (Inbox.notes_step hk hstep).mono.2
    exact decide_eq_true (hmono (of_decide_eq_true hbefore))
  · subst hnode
    rw [hquiet o hl hc] at hcell'
    cases hcell'

/-- A call stays trusted through the steps of others. -/
theorem Call.Trusted.step {cfg : Inbox.Config} {i i' : Inbox.State} {l : Inbox.Label}
    {c : Call} (hk : Inbox.Kinds i) (hc : c.Sound i) (h : c.Trusted i)
    (hstep : Inbox.step cfg i l = some i')
    (hquiet : ∀ o, l = .publish o → ∀ targets todo done,
      c = .wait (.filtering targets todo done) → o.node ∈ todo → cellOwned i o.node = false) :
    c.Trusted i' := by
  have hposted := (Inbox.notes_step hk hstep).mono.1
  cases c with
  | idle shut pc => trivial
  | receive pc => trivial
  | wait pc =>
    cases pc with
    | filtering targets todo done =>
      refine ⟨h.1.step hk (fun x hx => hc.children x (hc.todo x hx)) hstep ?_,
        fun x hx => hposted x (h.2 x hx)⟩
      intro o ho hmem
      exact hquiet o ho targets todo done rfl hmem
    | taking targets done => exact fun x hx => hposted x (h x hx)
    | _ => trivial

/-- A move of a call under the guard. -/
theorem Call.Trusted.moved {cfg : Inbox.Config} {s : State} {k : Nat} {i' : Inbox.State}
    {l : Label} {c c' : Call} (hn : s.inbox.notes.Sound) (hc : c.Sound s.inbox)
    (h : c.Trusted s.inbox) (hk : s.calls k = some c) (hok : Guarded s l)
    (hmove : Moved cfg k s.inbox l c i' c') : c'.Trusted i' := by
  cases hmove with
  | waitAll targets seen =>
    simp only [Guarded, hk] at hok
    exact ⟨hok, by simp⟩
  | waitKeep targets todo done x id hx hfin =>
    refine ⟨fun y hy => h.1 y (Finset.mem_of_mem_erase hy), fun y hy => ?_⟩
    rcases Finset.mem_insert.mp hy with rfl | hy
    · apply posted_of_finished hn (hc.children y (hc.todo y hx)) hfin
      intro hcell
      obtain ⟨⟨o, ho⟩, -⟩ := finished_iff.mp hfin
      exact h.1 y hx hcell (by rw [ho]; exact Option.some_ne_none o)
    · exact h.2 y hy
  | waitDrop targets todo done x id hx hfin =>
    exact ⟨fun y hy => h.1 y (Finset.mem_of_mem_erase hy), h.2⟩
  | waitTake targets done => exact h.2
  | woken c seen hparked hver =>
    cases c with
    | idle shut pc => trivial
    | receive pc => trivial
    | wait pc =>
      cases pc with
      | parked targets seen => trivial
      | _ => exact h
  | timeout c seen hparked =>
    cases c with
    | idle shut pc => trivial
    | receive pc => trivial
    | wait pc =>
      cases pc with
      | parked targets seen =>
        simp only [Guarded, hk] at hok
        exact ⟨hok, by simp⟩
      | _ => exact h
  | cancelled c c' hcancel =>
    cases c with
    | idle shut pc => cases pc <;> first | (obtain rfl := Option.some.inj hcancel; trivial) | cases hcancel
    | receive pc => cases pc <;> first | (obtain rfl := Option.some.inj hcancel; trivial) | cases hcancel
    | wait pc => cases pc <;> first | (obtain rfl := Option.some.inj hcancel; trivial) | cases hcancel
  | _ => trivial

/-- Every call in progress is trusted. -/
def State.CallsTrusted (s : State) : Prop := ∀ k c, s.calls k = some c → c.Trusted s.inbox

theorem trusted_of_isStart {i : Inbox.State} {c : Call} (h : c.isStart = true) :
    c.Trusted i := by
  cases c with
  | idle shut pc => trivial
  | receive pc => trivial
  | wait pc =>
    cases pc with
    | start agents => trivial
    | _ => cases h

theorem callsTrusted_step {cfg : Inbox.Config} {s t : State} {l : Label}
    (hs : (calls cfg).Reachable s) (h : s.CallsTrusted) (hok : Guarded s l)
    (hstep : step cfg s l = some t) : t.CallsTrusted := by
  have hinbox := inbox_reachable hs
  have hk := Inbox.kinds_of_reachable hinbox
  have hn := Inbox.notes_of_reachable hinbox
  have hcalls := callsSound_of_reachable hs
  intro j d hd
  rcases step_cases hstep with
    ⟨l', rfl, hi, hsame⟩ | ⟨k, c, -, hnone, hstart, rfl⟩ | ⟨k, c, c', hck, hupd, hmove⟩
  · rw [hsame] at hd
    refine (h j d hd).step hk (hcalls j d hd) hi ?_
    rintro o rfl targets todo done rfl hmem
    exact hok j targets todo done hd hmem
  · by_cases hj : j = k
    · subst hj
      simp only [State.setCall, Function.update_self, Option.some.injEq] at hd
      rw [← hd]
      exact trusted_of_isStart hstart
    · simp only [State.setCall, Function.update_of_ne hj] at hd
      exact h j d hd
  · rw [hupd] at hd
    by_cases hj : j = k
    · subst hj
      rw [Function.update_self, Option.some.injEq] at hd
      rw [← hd]
      exact (h j c hck).moved hn (hcalls j c hck) hck hok hmove
    · rw [Function.update_of_ne hj] at hd
      rcases hmove.task with hsame | ⟨l', hl', hquiet⟩
      · rw [hsame]
        exact h j d hd
      · exact (h j d hd).step hk (hcalls j d hd) hl' fun o ho => absurd ho (hquiet o)

theorem callsTrusted_of_reachableBy {cfg : Inbox.Config} {s : State}
    (h : (calls cfg).ReachableBy Guarded s) : s.CallsTrusted :=
  LTS.System.invariant_with (J := (calls cfg).Reachable) (P := State.CallsTrusted)
    (fun _ hs => hs.reachable) (fun _ _ hc => by cases hc)
    (fun _ _ _ hs _ ht hok hstep => callsTrusted_step hs ht hok hstep) s h

/-! ### Returned waits -/

/-- The final take of a trusted wait. -/
theorem reported_of_take {cfg : Inbox.Config} {i : Inbox.State}
    (hi : (Inbox.inbox cfg).Reachable i) {targets done : Finset NodeId}
    (hdone : ∀ c ∈ done, c ∈ i.notes.posted) (hopen : i.box.closed = false)
    {box : Mailbox.State} {b : Mailbox.Batch}
    (htake : Mailbox.take i.box cfg.limits.deliveryChars (Inbox.Pick.test (.senders done))
      (Envelope.size cfg.names) = some (box, b)) :
    Reported i (i.handOver cfg box b) ⟨b.taken, done, b.left, targets \ done⟩ := by
  have hm := Inbox.sound_of_reachable hi
  have hstep : Inbox.step cfg i (.take (.senders done)) = some (i.handOver cfg box b) := by
    simp only [Inbox.step, htake, Option.map_some]
  have hnext : (Inbox.inbox cfg).step i (.take (.senders done)) =
    some (i.handOver cfg box b) := hstep
  have hordered := Inbox.ordered_of_reachable (hi.next hnext)
  have hmono := (Inbox.notes_step (Inbox.kinds_of_reachable hi) hstep).mono.1
  obtain ⟨-, rfl, rfl⟩ := Mailbox.take_eq_some.mp htake
  constructor
  · intro c hc
    obtain ⟨e, he, hterm, hfrom⟩ := Inbox.mem_terminalSenders.mp (hdone c hc)
    refine ⟨e, he, hterm, hfrom, ?_⟩
    -- Nothing was returned so far, so the entry was handed over or is queued.
    have honce : i.pushed.Perm (i.delivered ++ i.undelivered ++ i.box.queue) := hm.once
    have hkept : i.undelivered = [] := hm.kept hopen
    rw [hkept, List.append_nil] at honce
    rcases List.mem_append.mp (honce.mem_iff.mp he) with he | he
    · exact Or.inr (Or.inl he)
    · have hperm := Mailbox.queue_perm i.box cfg.limits.deliveryChars
        (Inbox.Pick.test (.senders done)) (Envelope.size cfg.names)
      rcases List.mem_append.mp (hperm.mem_iff.mp he) with he | he
      · exact Or.inl he
      · exact Or.inr (Or.inr he)
  · intro c hc
    -- Some envelope of the child was selected and stayed.
    obtain ⟨e, he, hfrom⟩ := List.mem_map.mp (Multiset.mem_coe.mp hc)
    obtain ⟨hkept, hpick⟩ := List.mem_filter.mp he
    have hcdone : c ∈ done := by
      rw [← hfrom]
      exact of_decide_eq_true hpick
    have hmem := Inbox.mem_ofSender.mpr ⟨hkept, hfrom⟩
    have hsome := List.getLast?_eq_some_getLast (List.ne_nil_of_mem hmem)
    refine ⟨_, hsome, ?_⟩
    exact Inbox.getLast_of_posted hordered hopen (hmono c (hdone c hcdone)) hsome

/-- A move that returns from a wait is its final take. -/
theorem Moved.returned {cfg : Inbox.Config} {k : Nat} {i i' : Inbox.State} {l : Label}
    {c : Call} {w : Waited} (h : Moved cfg k i l c i' (.wait (.returned w))) :
    l = .advance k ∧ ∃ targets done box b, c = .wait (.taking targets done) ∧
      Mailbox.take i.box cfg.limits.deliveryChars (Inbox.Pick.test (.senders done))
        (Envelope.size cfg.names) = some (box, b) ∧
      i' = i.handOver cfg box b ∧ w = ⟨b.taken, done, b.left, targets \ done⟩ := by
  generalize hc' : Call.wait (.returned w) = c' at h
  cases h with
  | waitReturn targets done htake =>
    obtain ⟨rfl⟩ := WaitPc.returned.inj (Call.wait.inj hc')
    exact ⟨rfl, targets, done, _, _, rfl, htake, rfl, rfl⟩
  | woken c seen hparked hver =>
    cases c with
    | idle shut pc => cases hc'
    | receive pc => cases hc'
    | wait pc =>
      cases pc with
      | returned w' => cases hparked
      | _ => cases hc'
  | timeout c seen hparked =>
    cases c with
    | idle shut pc => cases hc'
    | receive pc => cases hc'
    | wait pc =>
      cases pc with
      | returned w' => cases hparked
      | _ => cases hc'
  | cancelled c c' hcancel =>
    subst hc'
    cases c with
    | idle shut pc => cases pc <;> cases hcancel
    | receive pc => cases pc <;> cases hcancel
    | wait pc => cases pc <;> cases hcancel
  | _ => cases hc'

/-- In a guarded run every wait that returned has reported its children
    truthfully. By induction on the run: the last step is the final take of
    the wait, or it leaves the returned call alone. -/
theorem wait_reported {cfg : Inbox.Config} {ls : List Label} {t : State}
    (h : (calls cfg).RunBy Guarded ls t) {k : Nat} {w : Waited}
    (hk : t.calls k = some (.wait (.returned w))) : ReportedIn cfg ls t k w := by
  induction h with
  | init => cases hk
  | step hrun hok hstep ih =>
    next ls s t l =>
    have hs := LTS.System.reachable_of_run hrun.run
    -- A call that had returned before this step.
    have hold : s.calls k = some (.wait (.returned w)) → ReportedIn cfg (ls ++ [l]) t k w := by
      intro hks
      obtain ⟨ls₁, ls₂, s₁, s₂, hls, hrun₁, hst, hrun₂, hrest⟩ := ih hks
      exact ⟨ls₁, ls₂ ++ [l], s₁, s₂, by rw [hls]; simp, hrun₁, hst,
        (calls cfg).run_snoc hrun₂ hstep, hrest⟩
    rcases step_cases hstep with
      ⟨l', -, -, heq⟩ | ⟨j, d, -, -, hstart, rfl⟩ | ⟨j, d, d', hj, heq, hmove⟩
    · apply hold
      rw [← heq]
      exact hk
    · by_cases hjk : k = j
      · subst hjk
        simp only [State.setCall, Function.update_self, Option.some.injEq] at hk
        subst hk
        cases hstart
      · apply hold
        simpa only [State.setCall, Function.update_of_ne hjk] using hk
    · by_cases hjk : k = j
      · subst hjk
        have hd : d' = .wait (.returned w) := by
          rw [heq, Function.update_self] at hk
          exact Option.some.inj hk
        subst hd
        obtain ⟨rfl, targets, done, box, b, rfl, htake, hinbox, rfl⟩ := hmove.returned
        have htrust := callsTrusted_of_reachableBy hrun.reachableBy k _ hj
        have hopen : s.inbox.box.closed = false := by
          simpa only [Guarded, hj] using hok
        refine ⟨ls, [], s, t, rfl, hrun.run, hstep, rfl, hk, ?_⟩
        rw [hinbox]
        exact reported_of_take (inbox_reachable hs) htrust hopen htake
      · apply hold
        rw [← hk, heq, Function.update_of_ne hjk]

/-! ### Runs of the guard -/

instance (i : Inbox.State) (targets : Finset NodeId) : Decidable (Settled i targets) :=
  inferInstanceAs (Decidable (∀ c ∈ targets, _ → _ → _))

/-- A test for the guard that looks at one call only. -/
def guarded (s : State) : Label → Bool
  | .advance k =>
    match s.calls k with
    | some (.wait (.checking targets _ _)) => Settled s.inbox targets
    | some (.wait (.taking _ _)) => !s.inbox.box.closed
    | _ => true
  | .timeout k =>
    match s.calls k with
    | some (.wait (.parked targets _)) => Settled s.inbox targets
    | _ => true
  | .inbox (.publish o) => !cellOwned s.inbox o.node
  | _ => true

theorem guarded_sound (s : State) (l : Label) (h : guarded s l = true) : Guarded s l := by
  cases l with
  | advance k =>
    simp only [guarded] at h
    simp only [Guarded]
    split at h
    · exact of_decide_eq_true h
    · simpa using h
    · trivial
  | timeout k =>
    simp only [guarded] at h
    simp only [Guarded]
    split at h
    · exact of_decide_eq_true h
    · trivial
  | inbox l' =>
    cases l' with
    | publish o =>
      intro k targets todo done hk hmem
      simpa [guarded] using h
    | _ => trivial
  | _ => trivial

/-- Before the first call every step is guarded. -/
theorem runBy_inbox {cfg : Inbox.Config} : ∀ ls i,
    (Inbox.inbox cfg).run (Inbox.inbox cfg).init ls = some i →
      (calls cfg).RunBy Guarded (ls.map .inbox) ⟨i, fun _ => none⟩ := by
  apply LTS.System.run_induction
  · exact .init
  · intro ls i l i' hrun ih hstep
    rw [List.map_append]
    refine ih.step ?_ ?_
    · cases l with
      | publish o =>
        intro k targets todo done hk
        cases hk
      | _ => trivial
    · show (Inbox.step cfg i l).map _ = _
      rw [show Inbox.step cfg i l = some i' from hstep]
      rfl

/-- What a call has returned. -/
def Call.waited : Call → Option Waited
  | .wait (.returned w) => some w
  | _ => none

theorem Call.eq_of_waited {c : Call} {w : Waited} (h : c.waited = some w) :
    c = .wait (.returned w) := by
  cases c with
  | wait pc =>
    cases pc with
    | returned w' =>
      obtain rfl := Option.some.inj h
      rfl
    | _ => cases h
  | _ => cases h

/-- A child of a cell that publishes before its agent waits for it. -/
def publishedLabels : List Inbox.Label :=
  [.register 2 .cell, .join 2, .publish ⟨2, .completed, "done"⟩]

/-- The wait stages its entry, which is pushed before the checks. -/
def stagingLabels : List Label :=
  [.call 0 (.wait (.start (some {2}))), .advance 0, .advance 0, .advance 0, .target 0 2 9,
    .inbox (.conclude (Inbox.notice Inbox.defaultConfig 9 ⟨2, .completed, "done"⟩)),
    .advance 0, .target 0 2 0, .advance 0, .target 0 2 0, .advance 0, .advance 0]

theorem wait_reported_staged : ∃ t w,
    (calls Inbox.defaultConfig).RunBy Guarded
      (publishedLabels.map .inbox ++ stagingLabels) t ∧
    t.calls 0 = some (.wait (.returned w)) ∧ w.finished = {2} ∧
    ReportedIn Inbox.defaultConfig (publishedLabels.map .inbox ++ stagingLabels) t 0 w := by
  have hrun : (((Inbox.inbox Inbox.defaultConfig).run
      (Inbox.inbox Inbox.defaultConfig).init publishedLabels).bind fun i =>
        (calls Inbox.defaultConfig).runIf guarded ⟨i, fun _ => none⟩ stagingLabels).bind
      (fun t => ((t.calls 0).bind Call.waited).map Waited.finished) = some {2} := by
    decide +kernel
  obtain ⟨t, ht, hw⟩ := Option.bind_eq_some_iff.mp hrun
  obtain ⟨i, hi, htail⟩ := Option.bind_eq_some_iff.mp ht
  obtain ⟨w, hcall, hfin⟩ := Option.map_eq_some_iff.mp hw
  obtain ⟨c, hc, hret⟩ := Option.bind_eq_some_iff.mp hcall
  rw [Call.eq_of_waited hret] at hc
  have hall := (runBy_inbox _ i hi).runIf guarded_sound htail
  exact ⟨t, w, hall, hc, hfin, wait_reported hall hc⟩

/-! ### A child without an entry -/

/-- A child of a cell that publishes after the staging pass has come by. -/
def lateLabels : List Label :=
  [.inbox (.register 2 .cell), .call 0 (.wait (.start (some {2}))), .advance 0, .advance 0,
    .advance 0, .target 0 2 9, .inbox (.join 2),
    .inbox (.publish ⟨2, .completed, "done"⟩),
    .advance 0, .target 0 2 0, .advance 0, .target 0 2 0, .advance 0]

/-- The wait reports the child, of which the open mailbox has no entry. -/
theorem wait_unreported : ∃ s t w,
    (calls Inbox.defaultConfig).run (calls Inbox.defaultConfig).init lateLabels = some s ∧
    step Inbox.defaultConfig s (.advance 0) = some t ∧
    t.calls 0 = some (.wait (.returned w)) ∧ s.inbox.box.closed = false ∧
    ¬ Reported s.inbox t.inbox w := by
  have hrun : ((calls Inbox.defaultConfig).run (calls Inbox.defaultConfig).init
      lateLabels).bind (fun s => (step Inbox.defaultConfig s (.advance 0)).bind fun t =>
        ((t.calls 0).bind Call.waited).map fun w =>
          (s.inbox.box.closed, s.inbox.pushed, w.finished)) = some (false, [], {2}) := by
    decide +kernel
  obtain ⟨s, hs, hrest⟩ := Option.bind_eq_some_iff.mp hrun
  obtain ⟨t, ht, hw⟩ := Option.bind_eq_some_iff.mp hrest
  obtain ⟨w, hcall, heq⟩ := Option.map_eq_some_iff.mp hw
  obtain ⟨c, hc, hret⟩ := Option.bind_eq_some_iff.mp hcall
  rw [Call.eq_of_waited hret] at hc
  simp only [Prod.mk.injEq] at heq
  obtain ⟨hopen, hpushed, hfin⟩ := heq
  refine ⟨s, t, w, hs, ht, hc, hopen, fun hreported => ?_⟩
  obtain ⟨e, he, -⟩ := hreported.finished 2 (by rw [hfin]; exact Finset.mem_singleton_self 2)
  rw [hpushed] at he
  cases he

end Kyora.Calls
