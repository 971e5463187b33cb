import Kyora.Inbox.Steps

/-! # Exactly-once delivery

  The part of an inbox that concerns plain delivery, the `Mail`, changes in
  nine ways only. Every envelope given to `push` is in one batch, or returned
  as undelivered, or still queued, and the two counters of the capacity bound
  agree with what they count.
-/

namespace Kyora.Inbox

/-! ### The mail of an inbox -/

/-- Queue, counters and history of one mailbox. -/
structure Mail where
  queue : List Envelope
  plain : Nat
  reserved : Nat
  closed : Bool
  sending : List Envelope
  pushed : List Envelope
  delivered : List Envelope
  undelivered : List Envelope

def State.mail (s : State) : Mail where
  queue := s.box.queue
  plain := s.box.plain
  reserved := s.box.reserved
  closed := s.box.closed
  sending := s.sending
  pushed := s.pushed
  delivered := s.delivered
  undelivered := s.undelivered

/-- The ways a step changes the mail. -/
inductive Mail.Step (capacity : Nat) (m : Mail) : Mail → Prop where
  | stay : Step capacity m m
  | accept (e : Envelope) (hplain : e.plain = true) (hopen : m.closed = false)
      (hroom : m.plain + m.reserved < capacity) :
      Step capacity m { m with reserved := m.reserved + 1, sending := m.sending ++ [e] }
  | plain (e : Envelope) (hplain : e.plain = true) (hmem : e ∈ m.sending)
      (hopen : m.closed = false) (hres : 1 ≤ m.reserved) :
      Step capacity m { m with
        reserved := m.reserved - 1, sending := m.sending.erase e, plain := m.plain + 1
        queue := m.queue ++ [e], pushed := m.pushed ++ [e] }
  | plainClosed (e : Envelope) (hplain : e.plain = true) (hmem : e ∈ m.sending)
      (hclosed : m.closed = true) (hres : 1 ≤ m.reserved) :
      Step capacity m { m with
        reserved := m.reserved - 1, sending := m.sending.erase e
        pushed := m.pushed ++ [e], undelivered := m.undelivered ++ [e] }
  | terminal (e : Envelope) (hterm : e.plain = false) (hopen : m.closed = false) :
      Step capacity m { m with queue := m.queue ++ [e], pushed := m.pushed ++ [e] }
  | terminalClosed (e : Envelope) (hterm : e.plain = false) (hclosed : m.closed = true) :
      Step capacity m { m with
        pushed := m.pushed ++ [e], undelivered := m.undelivered ++ [e] }
  | take (taken rest : List Envelope) (hperm : m.queue.Perm (taken ++ rest))
      (hrest : rest.Sublist m.queue) (hle : taken.countP Envelope.plain ≤ m.plain) :
      Step capacity m { m with
        queue := rest, plain := m.plain - taken.countP Envelope.plain
        delivered := m.delivered ++ taken }
  | shut (hqueue : m.queue = []) (hres : m.reserved = 0) :
      Step capacity m { m with closed := true }
  | close :
      Step capacity m { m with
        closed := true, plain := 0, queue := [], undelivered := m.undelivered ++ m.queue }

/-! ### Steps of the inbox -/

@[simp] theorem willWake_mail (s : State) : s.willWake.mail = s.mail := rfl

@[simp] theorem setKid_mail (s : State) (c : NodeId) (k : Kid) :
    (s.setKid c k).mail = s.mail := rfl

/-- A terminal push, as the mail sees it. -/
theorem mail_post_terminal {capacity : Nat} {s t : State} {e : Envelope}
    (he : e.plain = false) (h : s.post e = some t) : s.mail.Step capacity t.mail := by
  rw [post_terminal he, Option.some.injEq] at h
  subst h
  cases hclosed : s.box.closed
  · have hstep := @Mail.Step.terminal capacity s.mail e he hclosed
    simpa [State.mail, State.willWake, State.delivered, hclosed] using hstep
  · have hstep := @Mail.Step.terminalClosed capacity s.mail e he hclosed
    simpa [State.mail, State.willWake, State.delivered, hclosed] using hstep

theorem mail_take {cfg : Config} {s : State} {pick : Envelope → Bool} {box : Mailbox.State}
    {b : Mailbox.Batch}
    (h : Mailbox.take s.box cfg.limits.deliveryChars pick (Envelope.size cfg.names) =
      some (box, b)) :
    s.mail.Step cfg.limits.mailboxCapacity (s.handOver cfg box b).mail := by
  obtain ⟨hle, rfl, rfl⟩ := Mailbox.take_eq_some.mp h
  have hstep := @Mail.Step.take cfg.limits.mailboxCapacity s.mail _ _
    (Mailbox.queue_perm s.box cfg.limits.deliveryChars pick (Envelope.size cfg.names))
    (Mailbox.kept_sublist _ _ _ _) hle
  simpa [State.mail, State.handOver, State.delivered] using hstep

/-- Every step of the inbox changes the mail in one of the nine ways. -/
theorem mail_step {cfg : Config} {s t : State} {l : Label} (hk : Kinds s)
    (h : step cfg s l = some t) : s.mail.Step cfg.limits.mailboxCapacity t.mail := by
  cases fires_of_step h with
  | accepted e hplain hsender hopen hroom => exact .accept e hplain hopen hroom
  | deliver e hmem hpost =>
    have hplain := hk.sending e hmem
    obtain ⟨hres, ⟨hopen, rfl⟩ | ⟨hclosed, rfl⟩⟩ := post_plain hplain hpost
    · exact .plain e hplain hmem hopen hres
    · exact .plainClosed e hplain hmem hclosed hres
  | notify c id o hkid hpost =>
    have hterm := @mail_post_terminal cfg.limits.mailboxCapacity _ t _
      (notice_plain cfg id o) hpost
    exact hterm
  | conclude e hmem hpost =>
    have hterm := @mail_post_terminal cfg.limits.mailboxCapacity _ t _
      (hk.staged e hmem) hpost
    exact hterm
  | take pick htake => exact mail_take htake
  | idleDeliver shut hqueue htake => exact mail_take htake
  | idleDone shut hqueue hawait hres =>
    -- The mailbox may close, with nothing queued or reserved.
    cases shut
    · simpa [State.mail, State.delivered] using @Mail.Step.stay _ s.mail
    · simpa [State.mail, State.delivered] using @Mail.Step.shut _ s.mail hqueue hres
  | close => exact .close
  | charged o hfit =>
    -- Unfolded first, so that the sizes are not compared.
    simpa only [State.mail, State.delivered] using @Mail.Step.stay _ s.mail
  | _ => exact .stay

/-! ### The invariants -/

/-- An envelope that is returned at once joins the undelivered ones. -/
theorem perm_undelivered {pushed delivered undelivered queue : List Envelope} {e : Envelope}
    (h : pushed.Perm (delivered ++ undelivered ++ queue)) :
    (pushed ++ [e]).Perm (delivered ++ (undelivered ++ [e]) ++ queue) := by
  have hmid : (delivered ++ undelivered ++ queue ++ [e]).Perm
      (delivered ++ undelivered ++ ([e] ++ queue)) := by
    rw [List.append_assoc (delivered ++ undelivered)]
    exact List.perm_append_comm.append_left _
  refine ((h.append_right [e]).trans hmid).trans (List.Perm.of_eq ?_)
  simp [List.append_assoc]

/-- The counters count what they should, and every pushed envelope is
    accounted for. -/
structure Mail.Sound (capacity : Nat) (m : Mail) : Prop where
  reserved : m.reserved = m.sending.length
  plain : m.plain = m.queue.countP Envelope.plain
  bound : m.plain + m.reserved ≤ capacity
  once : m.pushed.Perm (m.delivered ++ m.undelivered ++ m.queue)
  /-- The queue keeps the order of arrival. -/
  order : m.queue.Sublist m.pushed
  closed : m.closed = true → m.queue = []
  /-- Nothing is returned before the mailbox closes. -/
  kept : m.closed = false → m.undelivered = []

theorem Mail.Sound.step {capacity : Nat} {m m' : Mail} (h : m.Sound capacity)
    (hstep : m.Step capacity m') : m'.Sound capacity := by
  cases hstep with
  | stay => exact h
  | accept e hplain hopen hroom =>
    refine ⟨?_, h.plain, ?_, h.once, h.order, h.closed, h.kept⟩
    · show m.reserved + 1 = (m.sending ++ [e]).length
      rw [h.reserved, List.length_append]; rfl
    · show m.plain + (m.reserved + 1) ≤ capacity
      omega
  | plain e hplain hmem hopen hres =>
    refine ⟨?_, ?_, ?_, ?_, h.order.append_right [e], fun hc => ?_, h.kept⟩
    · show m.reserved - 1 = (m.sending.erase e).length
      rw [h.reserved, List.length_erase_of_mem hmem]
    · show m.plain + 1 = (m.queue ++ [e]).countP Envelope.plain
      simp [h.plain, hplain]
    · show m.plain + 1 + (m.reserved - 1) ≤ capacity
      have := h.bound
      omega
    · show (m.pushed ++ [e]).Perm (m.delivered ++ m.undelivered ++ (m.queue ++ [e]))
      rw [← List.append_assoc]
      exact h.once.append_right [e]
    · have hclosed : m.closed = true := hc
      rw [hopen] at hclosed
      cases hclosed
  | plainClosed e hplain hmem hclosed hres =>
    refine ⟨?_, h.plain, ?_, ?_, h.order.trans (List.sublist_append_left _ _), h.closed,
      fun hopen => ?_⟩
    · show m.reserved - 1 = (m.sending.erase e).length
      rw [h.reserved, List.length_erase_of_mem hmem]
    · show m.plain + (m.reserved - 1) ≤ capacity
      have := h.bound
      omega
    · exact perm_undelivered h.once
    · rw [show m.closed = false from hopen] at hclosed
      cases hclosed
  | terminal e hterm hopen =>
    refine ⟨h.reserved, ?_, h.bound, ?_, h.order.append_right [e], fun hc => ?_, h.kept⟩
    · show m.plain = (m.queue ++ [e]).countP Envelope.plain
      simp [h.plain, hterm]
    · show (m.pushed ++ [e]).Perm (m.delivered ++ m.undelivered ++ (m.queue ++ [e]))
      rw [← List.append_assoc]
      exact h.once.append_right [e]
    · have hclosed : m.closed = true := hc
      rw [hopen] at hclosed
      cases hclosed
  | terminalClosed e hterm hclosed =>
    refine ⟨h.reserved, h.plain, h.bound, perm_undelivered h.once,
      h.order.trans (List.sublist_append_left _ _), h.closed, fun hopen => ?_⟩
    rw [show m.closed = false from hopen] at hclosed
    cases hclosed
  | take taken rest hperm hrest hle =>
    have hcount : m.plain = taken.countP Envelope.plain + rest.countP Envelope.plain := by
      rw [h.plain, hperm.countP_eq, List.countP_append]
    refine ⟨h.reserved, ?_, ?_, ?_, hrest.trans h.order, fun hc => ?_, h.kept⟩
    · show m.plain - taken.countP Envelope.plain = rest.countP Envelope.plain
      omega
    · show m.plain - taken.countP Envelope.plain + m.reserved ≤ capacity
      have := h.bound
      omega
    · show m.pushed.Perm (m.delivered ++ taken ++ m.undelivered ++ rest)
      -- The batch moves from the queue to what was delivered.
      have hmove : (m.delivered ++ m.undelivered ++ (taken ++ rest)).Perm
          (m.delivered ++ taken ++ m.undelivered ++ rest) := by
        rw [← List.append_assoc (m.delivered ++ m.undelivered), List.append_assoc m.delivered,
          List.append_assoc m.delivered taken]
        exact ((List.perm_append_comm.append_left m.delivered)).append_right rest
      exact h.once.trans ((hperm.append_left _).trans hmove)
    · have hnil : m.queue = [] := h.closed hc
      rw [hnil] at hrest
      exact List.sublist_nil.mp hrest
  | shut hqueue hres =>
    exact ⟨h.reserved, h.plain, h.bound, h.once, h.order, fun _ => hqueue,
      fun hopen => Bool.noConfusion hopen⟩
  | close =>
    refine ⟨h.reserved, rfl, ?_, ?_, List.nil_sublist _, fun _ => rfl,
      fun hopen => Bool.noConfusion hopen⟩
    · show 0 + m.reserved ≤ capacity
      have := h.bound
      omega
    · show m.pushed.Perm (m.delivered ++ (m.undelivered ++ m.queue) ++ [])
      rw [List.append_nil, ← List.append_assoc]
      exact h.once

theorem sound_init (cfg : Config) : (inbox cfg).init.mail.Sound cfg.limits.mailboxCapacity :=
  ⟨rfl, rfl, Nat.zero_le _, List.Perm.refl _, List.Sublist.refl _, fun _ => rfl, fun _ => rfl⟩

theorem sound_of_reachable {cfg : Config} {s : State} (h : (inbox cfg).Reachable s) :
    s.mail.Sound cfg.limits.mailboxCapacity :=
  LTS.System.invariant_with (P := fun s => s.mail.Sound cfg.limits.mailboxCapacity)
    (fun _ => kinds_of_reachable) (sound_init cfg)
    (fun _ _ _ hk _ hs _ hstep => hs.step (mail_step hk hstep)) s h

/-- A closed mailbox stays closed, and accepts nothing. -/
theorem Mail.Step.sealed {capacity : Nat} {m m' : Mail} (h : m.Step capacity m')
    (hclosed : m.closed = true) (hsending : m.sending = []) :
    m'.closed = true ∧ m'.sending = [] := by
  cases h with
  | accept e hplain hopen hroom =>
    rw [hclosed] at hopen
    cases hopen
  | plain e hplain hmem hopen hres =>
    rw [hclosed] at hopen
    cases hopen
  | plainClosed e hplain hmem hclosed' hres =>
    rw [hsending] at hmem
    cases hmem
  | shut hqueue hres => exact ⟨rfl, hsending⟩
  | close => exact ⟨rfl, hsending⟩
  | _ => exact ⟨hclosed, hsending⟩

/-! ### Exactly once -/

/-- What holds of a mailbox after any interleaving of its users. -/
structure ExactlyOnce (cfg : Config) (s : State) : Prop where
  /-- Every envelope given to `push` is in exactly one batch, or undelivered,
      or still queued. -/
  once : s.pushed.Perm (s.batches.flatten ++ s.undelivered ++ s.box.queue)
  /-- What stays queued keeps its order of arrival. -/
  order : s.box.queue.Sublist s.pushed
  /-- A take hands over envelopes that were ahead of all that stay of the same
      selection, and leaves the others alone. -/
  ahead : ∀ {pick : Envelope → Bool} {t : Mailbox.State} {b : Mailbox.Batch},
    Mailbox.take s.box cfg.limits.deliveryChars pick (Envelope.size cfg.names) = some (t, b) →
    b.taken ++ t.queue.filter pick = s.box.queue.filter pick ∧
      t.queue.filter (fun e => !pick e) = s.box.queue.filter (fun e => !pick e)
  plain : s.box.plain = s.box.queue.countP Envelope.plain
  capacity : s.box.closed = false →
    s.box.plain + s.box.reserved ≤ cfg.limits.mailboxCapacity
  /-- One reservation for each accepted send, also after the mailbox closed. -/
  reserved : s.box.reserved = s.sending.length
  pushes : ∀ e ∈ s.sending ++ s.staged, ∃ r, Mailbox.push s.box e = some r
  takes : ∀ pick, ∃ r, Mailbox.take s.box cfg.limits.deliveryChars pick
    (Envelope.size cfg.names) = some r
  idles : ∀ shut, ∃ r, Mailbox.idle s.box shut cfg.limits.deliveryChars
    (Envelope.size cfg.names) = some r

/-- No interleaving loses, duplicates or reorders an envelope, exceeds the
    capacity or underflows a counter. -/
theorem exactly_once (cfg : Config) {s : State} (h : (inbox cfg).Reachable s) :
    ExactlyOnce cfg s := by
  have hm := sound_of_reachable h
  have hk := kinds_of_reachable h
  have htakes : ∀ pick, ∃ r, Mailbox.take s.box cfg.limits.deliveryChars pick
      (Envelope.size cfg.names) = some r := fun pick =>
    Mailbox.take_isSome (Nat.le_of_eq hm.plain.symm)
  refine ⟨hm.once, hm.order, ?_, hm.plain, fun _ => hm.bound, hm.reserved, ?_, htakes, ?_⟩
  · intro pick t b htake
    obtain ⟨-, rfl, rfl⟩ := Mailbox.take_eq_some.mp htake
    constructor
    · have hsel := Mailbox.filter_handed_append_filter_kept s.box cfg.limits.deliveryChars pick
        (Envelope.size cfg.names) (Or.inl fun e he => he)
      rw [List.filter_eq_self.mpr fun e he =>
        (List.mem_filter.mp ((Mailbox.handed_isPrefix _ _ _ _).subset he)).2] at hsel
      exact hsel
    · have hrest := Mailbox.filter_handed_append_filter_kept s.box cfg.limits.deliveryChars pick
        (Envelope.size cfg.names) (Or.inr fun e (he : (!pick e) = true) => by simpa using he)
      rw [List.filter_eq_nil_iff.mpr fun e he => by
        simpa using (List.mem_filter.mp ((Mailbox.handed_isPrefix _ _ _ _).subset he)).2,
        List.nil_append] at hrest
      exact hrest
  · intro e he
    rcases List.mem_append.mp he with he | he
    · -- An accepted send still has its reservation.
      apply Mailbox.push_plain_isSome (hk.sending e he)
      rw [show s.box.reserved = s.sending.length from hm.reserved]
      exact List.length_pos_of_mem he
    · exact ⟨_, Mailbox.push_terminal (hk.staged e he)⟩
  · intro shut
    unfold Mailbox.idle
    split
    · obtain ⟨r, hr⟩ := htakes fun _ => true
      rw [hr]
      exact ⟨_, rfl⟩
    · split
      · exact ⟨_, rfl⟩
      · exact ⟨_, rfl⟩

/-- Two accepted sends, one pushed before and one after the mailbox closed,
    around a child's notice that is taken in between. -/
def closingLabels : List Label :=
  let m : Nat → Envelope := fun id => ⟨id, 7, 1, .message, "hello", none, none⟩
  [.register 2 .node, .expect 2, .accept (m 0), .accept (m 1), .join 2,
    .publish ⟨2, .completed, "done"⟩, .deliver (m 0), .notify 2 2, .take (.senders {2}),
    .close, .deliver (m 1), .wake 0]

theorem exactly_once_closing : ∃ s,
    (inbox defaultConfig).run (inbox defaultConfig).init closingLabels = some s ∧
      s.batches.map List.length = [1] ∧ s.undelivered.map Envelope.id = [0, 1] ∧
      ExactlyOnce defaultConfig s := by
  have hrun : ((inbox defaultConfig).run (inbox defaultConfig).init closingLabels).map
      (fun s => (s.batches.map List.length, s.undelivered.map Envelope.id)) =
        some ([1], [0, 1]) := by decide +kernel
  obtain ⟨s, hs, heq⟩ := Option.map_eq_some_iff.mp hrun
  obtain ⟨hbatches, hundelivered⟩ := Prod.mk.inj heq
  exact ⟨s, hs, hbatches, hundelivered,
    exactly_once defaultConfig (LTS.System.reachable_of_run hs)⟩

end Kyora.Inbox
