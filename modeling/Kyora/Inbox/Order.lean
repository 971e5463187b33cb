import Kyora.Inbox.Mail
import Kyora.Inbox.Terminal

/-! # Order of one sender's envelopes

  A take selects all envelopes of a sender or none, so what is handed over
  and what stays queued is, for each sender, what was pushed, in that order.
  A terminal entry is pushed after the sender's tasks were joined, so it comes
  last.
-/

namespace Kyora.Inbox

/-! ### Life of a sender -/

/-- Once an outcome is published the agent has no send in flight, and only
    published outcomes are recorded or pushed. -/
structure Joined (s : State) : Prop where
  quiet : ∀ {c : NodeId} {o : Outcome}, s.outcome c = some o → ∀ e ∈ s.sending, e.from_ ≠ c
  published : ∀ c ∈ s.notes.posted ++ s.notes.recording, ∃ o, s.outcome c = some o

/-- A step publishes at most, it never takes an outcome back. -/
theorem outcome_step {cfg : Config} {s t : State} {l : Label}
    (h : step cfg s l = some t) {c : NodeId} {o : Outcome} (ho : s.outcome c = some o) :
    t.outcome c = some o := by
  -- A phase that is replaced had no outcome, or the same one.
  have hset : ∀ {u : State} {d : NodeId} {k : Kid}, u.kids = s.kids →
      (∀ o', s.outcome d = some o' → k.phase.outcome = some o') →
      (u.setKid d k).outcome c = some o := by
    intro u d k hu hold
    rw [outcome_setKid]
    split
    · next hd =>
      subst hd
      exact hold o ho
    · rw [outcome_of_kids hu]
      exact ho
  have hnone : ∀ {d : NodeId} {k : Kid}, s.kids d = some k → k.phase.outcome = none →
      ∀ {o' : Outcome}, s.outcome d = some o' → False := by
    intro d k hkid hphase o' ho'
    obtain ⟨k', hk', hp⟩ := State.outcome_eq_some.mp ho'
    rw [hkid, Option.some.injEq] at hk'
    rw [← hk', hphase] at hp
    cases hp
  have hpost : ∀ {u v : State} {e : Envelope}, u.post e = some v →
      u.outcome c = some o → v.outcome c = some o := by
    intro u v e hpost hu
    rw [outcome_of_kids (post_flight hpost).2.2.1]
    exact hu
  cases fires_of_step h with
  | deliver e hmem hpush => exact hpost hpush ho
  | register d kin hnew =>
    apply hset rfl
    intro o' ho'
    simp [State.outcome, hnew] at ho'
  | expect d hkid => exact hset rfl fun o' ho' => (hnone hkid rfl ho').elim
  | join d kin hkid => exact hset rfl fun o' ho' => (hnone hkid rfl ho').elim
  | publish o' kin hkid hjoined hkin => exact hset rfl fun _ h' => (hnone hkid rfl h').elim
  | publishCell o' hkid hjoined => exact hset rfl fun _ h' => (hnone hkid rfl h').elim
  | notify d id o' hkid hpush =>
    apply hpost hpush
    apply hset rfl
    intro o'' ho''
    simpa [State.outcome, hkid, Phase.outcome] using ho''
  | conclude e hmem hpush => exact hpost hpush ho
  | charged o' hfit =>
    -- Unfolded first, so that the sizes are not compared.
    unfold State.outcome at ho ⊢
    exact ho
  | _ => exact ho

/-- A new phase in which nothing can be read. -/
theorem outcome_of_setKid {s : State} {c d : NodeId} {k : Kid} {o : Outcome}
    (hk : k.phase.outcome = none) (h : (s.setKid d k).outcome c = some o) :
    s.outcome c = some o := by
  rw [outcome_setKid] at h
  split at h
  · rw [hk] at h
    cases h
  · exact h

/-- An agent that accepts sends has published nothing. -/
theorem outcome_of_isOpen {p : Phase} (h : p.isOpen = true) : p.outcome = none := by
  cases p with
  | registered => rfl
  | running => rfl
  | _ => cases h

theorem quiet_step {cfg : Config} {s t : State} {l : Label} (h : Joined s)
    (hstep : step cfg s l = some t) {c : NodeId} {o : Outcome} (ho : t.outcome c = some o) :
    ∀ e ∈ t.sending, e.from_ ≠ c := by
  cases fires_of_step hstep with
  | accepted e hplain hsender hopen hroom =>
    intro e' he'
    have hold : s.outcome c = some o := ho
    rcases List.mem_append.mp he' with he' | he'
    · exact h.quiet hold e' he'
    · -- The sender's admission was open, so it has no outcome.
      rw [List.mem_singleton.mp he']
      rintro rfl
      obtain ⟨k, hkid, hphase⟩ := State.outcome_eq_some.mp hold
      rw [outcome_of_isOpen (hsender k hkid)] at hphase
      cases hphase
  | deliver e hmem hpost =>
    obtain ⟨hsending, -, hkids, -⟩ := post_flight hpost
    intro e' he'
    rw [hsending] at he'
    unfold State.outcome at ho
    rw [hkids] at ho
    exact h.quiet ho e' (List.mem_of_mem_erase he')
  | register d kin hnew =>
    have hphase : (if kin = .node then Phase.registered else .running).outcome = none := by
      split
      · rfl
      · rfl
    exact h.quiet (outcome_of_setKid hphase ho)
  | expect d hkid =>
    have hold := @outcome_of_setKid s c d ⟨.node, .running⟩ o rfl ho
    exact h.quiet hold
  | join d kin hkid => exact h.quiet (outcome_of_setKid rfl ho)
  | publish o' kin hkid hjoined hkin =>
    rw [outcome_setKid] at ho
    split at ho
    · next hc =>
      rw [hc]
      exact hjoined
    · exact h.quiet ho
  | publishCell o' hkid hjoined =>
    have hold : (s.setKid o'.node ⟨.cell, .published o'⟩).outcome c = some o := ho
    rw [outcome_setKid] at hold
    split at hold
    · next hc =>
      rw [hc]
      exact hjoined
    · exact h.quiet hold
  | notify d id o' hkid hpost =>
    obtain ⟨hsending, -, hkids, -⟩ := post_flight hpost
    rw [hsending]
    unfold State.outcome at ho
    rw [hkids] at ho
    have hset : (s.setKid d ⟨.node, .ended o'⟩).outcome c = some o := ho
    rw [outcome_setKid] at hset
    split at hset
    · next hc =>
      subst hc
      have hold : s.outcome c = some o' := by simp [State.outcome, hkid, Phase.outcome]
      exact h.quiet hold
    · exact h.quiet hset
  | conclude e hmem hpost =>
    obtain ⟨hsending, -, hkids, -⟩ := post_flight hpost
    rw [hsending]
    unfold State.outcome at ho
    rw [hkids] at ho
    exact h.quiet ho
  | charged o' hfit =>
    unfold State.outcome at ho
    exact h.quiet ho
  | _ => exact h.quiet ho

/-- A step only reports outcomes that are published. -/
theorem Notes.Step.published {n n' : Notes} (h : n.Step n') {c : NodeId}
    (hc : c ∈ n'.posted ++ n'.recording) :
    c ∈ n.posted ++ n.recording ∨ ∃ k o, n'.kids c = some k ∧ k.phase.outcome = some o := by
  cases h with
  | notify d o hkid =>
    rcases List.mem_append.mp hc with hc | hc
    · rcases List.mem_append.mp hc with hc | hc
      · exact Or.inl (List.mem_append_left _ hc)
      · rw [List.mem_singleton.mp hc]
        exact Or.inr ⟨⟨.node, .ended o⟩, o, Function.update_self .., rfl⟩
    · exact Or.inl (List.mem_append_right _ hc)
  | stage d k hkid hout hopen hawait hnew =>
    rcases List.mem_append.mp hc with hc | hc
    · exact Or.inl (List.mem_append_left _ hc)
    · rcases List.mem_append.mp hc with hc | hc
      · exact Or.inl (List.mem_append_right _ hc)
      · rw [List.mem_singleton.mp hc]
        obtain ⟨o, ho⟩ := Option.ne_none_iff_exists'.mp hout
        exact Or.inr ⟨k, o, hkid, ho⟩
  | conclude d rest hperm =>
    have hall : (n.posted ++ [d] ++ rest).Perm (n.posted ++ n.recording) := by
      rw [List.append_assoc]
      exact hperm.symm.append_left _
    exact Or.inl (hall.mem_iff.mp hc)
  | _ => exact Or.inl hc

theorem joined_step {cfg : Config} {s t : State} {l : Label} (hk : Kinds s) (h : Joined s)
    (hstep : step cfg s l = some t) : Joined t := by
  refine ⟨quiet_step h hstep, fun c hc => ?_⟩
  rcases (notes_step hk hstep).published hc with hold | ⟨k, o, hkid, ho⟩
  · obtain ⟨o, ho⟩ := h.published c hold
    exact ⟨o, outcome_step hstep ho⟩
  · exact ⟨o, State.outcome_eq_some.mpr ⟨k, hkid, ho⟩⟩

theorem joined_init (cfg : Config) : Joined (inbox cfg).init :=
  ⟨by simp [inbox, State.init],
    by simp [inbox, State.init, State.notes, terminalSenders]⟩

theorem joined_of_reachable {cfg : Config} {s : State} (h : (inbox cfg).Reachable s) :
    Joined s :=
  LTS.System.invariant_with (fun _ => kinds_of_reachable) (joined_init cfg)
    (fun _ _ _ hk _ hs _ hstep => joined_step hk hs hstep) s h

/-! ### Per-sender order -/

/-- The envelopes of one sender in a list. -/
def ofSender (c : NodeId) (xs : List Envelope) : List Envelope :=
  xs.filter fun e => e.from_ == c

theorem mem_ofSender {c : NodeId} {xs : List Envelope} {e : Envelope} :
    e ∈ ofSender c xs ↔ e ∈ xs ∧ e.from_ = c := by
  simp [ofSender]

@[simp] theorem ofSender_append (c : NodeId) (xs ys : List Envelope) :
    ofSender c (xs ++ ys) = ofSender c xs ++ ofSender c ys := by
  simp [ofSender]

theorem ofSender_singleton (c : NodeId) (e : Envelope) :
    ofSender c [e] = if e.from_ = c then [e] else [] := by
  by_cases h : e.from_ = c <;> simp [ofSender, h]

/-- What a mailbox does to the envelopes of each sender. -/
structure Ordered (s : State) : Prop where
  /-- While the mailbox is open nothing is lost and nothing overtakes. -/
  fifo : s.box.closed = false → ∀ c,
    ofSender c s.delivered ++ ofSender c s.box.queue = ofSender c s.pushed
  sublist : ∀ c,
    (ofSender c s.delivered ++ ofSender c s.box.queue).Sublist (ofSender c s.pushed)
  /-- Only the last envelope of a sender can be its terminal entry. -/
  last : ∀ c, (ofSender c s.pushed).Pairwise fun a _ => a.plain = true
  closed : s.box.closed = true → s.box.queue = []
  /-- Once a sender's terminal entry is handed over, everything of it is. -/
  complete : ∀ e ∈ s.delivered, e.plain = false →
    ofSender e.from_ s.delivered = ofSender e.from_ s.pushed

/-- Nothing follows a terminal entry that is the last of its sender. -/
theorem eq_nil_of_terminal {xs ys : List Envelope} {e : Envelope}
    (h : (xs ++ ys).Pairwise fun a _ => a.plain = true) (he : e ∈ xs)
    (hterm : e.plain = false) : ys = [] := by
  rw [List.eq_nil_iff_forall_not_mem]
  intro b hb
  have hplain := (List.pairwise_append.mp h).2.2 e he b hb
  rw [hplain] at hterm
  cases hterm

/-- A selection takes all envelopes of a sender or none. -/
def SenderWise (pick : Envelope → Bool) : Prop :=
  ∀ a b : Envelope, a.from_ = b.from_ → pick a = pick b

theorem Pick.senderWise (pick : Pick) : SenderWise pick.test := by
  intro a b h
  cases pick with
  | all => rfl
  | senders done => simp only [Pick.test, h]

/-- A sender-wise take keeps the order of each sender. -/
theorem ofSender_take {s : Mailbox.State} {budget : Nat} {pick : Envelope → Bool}
    {size : Envelope → Nat} (hpick : SenderWise pick) (c : NodeId) :
    ofSender c (Mailbox.handed s budget pick size) ++
      ofSender c (Mailbox.kept s budget pick size) = ofSender c s.queue := by
  apply Mailbox.filter_handed_append_filter_kept
  by_cases hsome : ∃ e : Envelope, e.from_ = c ∧ pick e = true
  · obtain ⟨e, he, htrue⟩ := hsome
    left
    intro a ha
    rw [hpick a e (by rw [he]; simpa using ha), htrue]
  · right
    intro a ha
    rw [← Bool.not_eq_true]
    exact fun htrue => hsome ⟨a, by simpa using ha, htrue⟩

@[simp] theorem handOver_delivered (cfg : Config) (s : State) (box : Mailbox.State)
    (b : Mailbox.Batch) : (s.handOver cfg box b).delivered = s.delivered ++ b.taken := by
  simp [State.handOver, State.delivered]

theorem Ordered.take {cfg : Config} {s : State} (h : Ordered s) {pick : Envelope → Bool}
    (hpick : SenderWise pick) {box : Mailbox.State} {b : Mailbox.Batch}
    (htake : Mailbox.take s.box cfg.limits.deliveryChars pick (Envelope.size cfg.names) =
      some (box, b)) : Ordered (s.handOver cfg box b) := by
  obtain ⟨-, rfl, rfl⟩ := Mailbox.take_eq_some.mp htake
  have hsplit : ∀ c, ofSender c (s.delivered ++
        Mailbox.handed s.box cfg.limits.deliveryChars pick (Envelope.size cfg.names)) ++
      ofSender c (Mailbox.kept s.box cfg.limits.deliveryChars pick (Envelope.size cfg.names)) =
      ofSender c s.delivered ++ ofSender c s.box.queue := by
    intro c
    rw [ofSender_append, List.append_assoc, ofSender_take hpick c]
  refine ⟨fun hopen c => ?_, fun c => ?_, h.last, fun hclosed => ?_, fun e he hterm => ?_⟩
  · rw [handOver_delivered]
    exact (hsplit c).trans (h.fifo hopen c)
  · rw [handOver_delivered]
    have hsub := h.sublist c
    rw [← hsplit c] at hsub
    exact hsub
  · have hrest := Mailbox.kept_sublist s.box cfg.limits.deliveryChars pick
      (Envelope.size cfg.names)
    rw [h.closed hclosed] at hrest
    exact List.sublist_nil.mp hrest
  · rw [handOver_delivered] at he ⊢
    cases hclosed : s.box.closed
    · -- Nothing stays queued behind the terminal entry.
      have hall := (hsplit e.from_).trans (h.fifo hclosed e.from_)
      have hlast := h.last e.from_
      rw [← hall] at hlast
      have hnil := eq_nil_of_terminal hlast (mem_ofSender.mpr ⟨he, rfl⟩) hterm
      rw [hnil, List.append_nil] at hall
      exact hall
    · -- A closed mailbox has nothing to hand over.
      have hnone : Mailbox.handed s.box cfg.limits.deliveryChars pick
          (Envelope.size cfg.names) = [] := by
        have hpre := Mailbox.handed_isPrefix s.box cfg.limits.deliveryChars pick
          (Envelope.size cfg.names)
        rw [h.closed hclosed] at hpre
        exact List.prefix_nil.mp hpre
      rw [hnone, List.append_nil] at he ⊢
      exact h.complete e he hterm

/-- An envelope whose sender has pushed only plain messages so far. -/
theorem Ordered.post {s t : State} (h : Ordered s) {e : Envelope}
    (hnew : ∀ a ∈ ofSender e.from_ s.pushed, a.plain = true) (hpost : s.post e = some t) :
    Ordered t := by
  have hpushed : t.pushed = s.pushed ++ [e] := (post_flight hpost).2.2.2.2.2.2.1
  have hbatches : t.delivered = s.delivered := by
    unfold State.delivered
    rw [(post_flight hpost).2.2.2.1]
  have hbox : t.box.closed = s.box.closed ∧
      t.box.queue = if s.box.closed then s.box.queue else s.box.queue ++ [e] := by
    cases he : e.plain
    · rw [post_terminal he, Option.some.injEq] at hpost
      subst hpost
      exact ⟨rfl, rfl⟩
    · obtain ⟨-, ⟨hopen, rfl⟩ | ⟨hclosed, rfl⟩⟩ := post_plain he hpost
      · exact ⟨rfl, by rw [hopen]; rfl⟩
      · exact ⟨rfl, by rw [hclosed]; rfl⟩
  refine ⟨fun hopen c => ?_, fun c => ?_, fun c => ?_, fun hclosed => ?_, fun a ha hterm => ?_⟩
  · rw [hbox.1] at hopen
    rw [hbatches, hbox.2, hopen, hpushed, ofSender_append, ← h.fifo hopen c]
    simp [List.append_assoc]
  · rw [hbatches, hbox.2, hpushed, ofSender_append]
    split
    · exact (h.sublist c).trans (List.sublist_append_left _ _)
    · rw [ofSender_append, ← List.append_assoc]
      exact (h.sublist c).append_right _
  · rw [hpushed, ofSender_append, ofSender_singleton]
    split
    · next hc =>
      subst hc
      rw [List.pairwise_append]
      exact ⟨h.last _, List.pairwise_singleton _ _, fun a ha b _ => hnew a ha⟩
    · rw [List.append_nil]
      exact h.last c
  · rw [hbox.1] at hclosed
    rw [hbox.2, hclosed, if_pos rfl]
    exact h.closed hclosed
  · -- A sender whose terminal entry was handed over pushes nothing more.
    rw [hbatches] at ha ⊢
    have hpast : a ∈ ofSender a.from_ s.pushed :=
      (h.sublist a.from_).subset (List.mem_append_left _ (mem_ofSender.mpr ⟨ha, rfl⟩))
    have hother : e.from_ ≠ a.from_ := by
      intro heq
      rw [← heq] at hpast
      rw [hnew a hpast] at hterm
      cases hterm
    rw [hpushed, ofSender_append, ofSender_singleton, if_neg hother, List.append_nil]
    exact h.complete a ha hterm

/-- Only plain messages of an agent were pushed before its terminal entry. -/
theorem plain_of_not_posted {s : State} {c : NodeId} (h : c ∉ s.notes.posted) :
    ∀ a ∈ ofSender c s.pushed, a.plain = true := by
  intro a ha
  obtain ⟨hmem, hfrom⟩ := mem_ofSender.mp ha
  rw [← Bool.not_eq_false]
  exact fun hterm => h (mem_terminalSenders.mpr ⟨a, hmem, hterm, hfrom⟩)

theorem Ordered.of_eq {s t : State} (h : Ordered s) (hclosed : t.box.closed = s.box.closed)
    (hqueue : t.box.queue = s.box.queue) (hpushed : t.pushed = s.pushed)
    (hbatches : t.batches = s.batches) : Ordered t := by
  have hdelivered : t.delivered = s.delivered := by
    unfold State.delivered
    rw [hbatches]
  constructor
  · rw [hclosed, hqueue, hpushed, hdelivered]
    exact h.fifo
  · rw [hqueue, hpushed, hdelivered]
    exact h.sublist
  · rw [hpushed]
    exact h.last
  · rw [hclosed, hqueue]
    exact h.closed
  · rw [hpushed, hdelivered]
    exact h.complete

theorem ordered_step {cfg : Config} {s t : State} {l : Label} (hk : Kinds s)
    (hn : s.notes.Sound) (hj : Joined s) (h : Ordered s) (hstep : step cfg s l = some t) :
    Ordered t := by
  cases fires_of_step hstep with
  | deliver e hmem hpost =>
    have hold : Ordered { s with sending := s.sending.erase e } := h.of_eq rfl rfl rfl rfl
    refine hold.post (plain_of_not_posted fun hposted => ?_) hpost
    -- A sender with a send in flight has not published, so nothing reports it.
    obtain ⟨o, ho⟩ := hj.published e.from_ (List.mem_append_left _ hposted)
    exact hj.quiet ho e hmem rfl
  | notify c id o hkid hpost =>
    have hold : Ordered (s.setKid c ⟨.node, .ended o⟩) := h.of_eq rfl rfl rfl rfl
    have hnode : o.node = c := hk.outcome (by simp [State.outcome, hkid, Phase.outcome])
    refine hold.post (plain_of_not_posted fun hposted => ?_) hpost
    have hc : c ∈ s.notes.posted := by
      rw [← hnode]
      exact hposted
    obtain ⟨o', ho'⟩ := (hn.node c _ hkid).2.mp hc
    cases ho'
  | conclude e hmem hpost =>
    have hold : Ordered { s with staged := s.staged.erase e } := h.of_eq rfl rfl rfl rfl
    refine hold.post (plain_of_not_posted fun hposted => ?_) hpost
    -- A staged agent has no terminal entry yet.
    have hrec : e.from_ ∈ s.notes.recording := List.mem_map_of_mem hmem
    exact (List.nodup_append.mp hn.nodup).2.2 _ hposted _ hrec rfl
  | take pick htake => exact h.take pick.senderWise htake
  | idleDeliver shut hqueue htake => exact h.take (fun _ _ _ => rfl) htake
  | idleDone shut hqueue hawait hres =>
    refine ⟨fun hopen => ?_, h.sublist, h.last, fun _ => hqueue, h.complete⟩
    have hboth : (s.box.closed || shut) = false := hopen
    exact h.fifo (Bool.or_eq_false_iff.mp hboth).1
  | close =>
    refine ⟨fun hopen => (Bool.noConfusion hopen), fun c => ?_, h.last, fun _ => rfl,
      h.complete⟩
    show (ofSender c s.delivered ++ []).Sublist (ofSender c s.pushed)
    rw [List.append_nil]
    exact (List.sublist_append_left _ _).trans (h.sublist c)
  | _ => exact h.of_eq rfl rfl rfl rfl

theorem ordered_init (cfg : Config) : Ordered (inbox cfg).init :=
  ⟨fun _ _ => rfl, fun _ => List.Sublist.refl _, fun _ => List.Pairwise.nil, fun _ => rfl,
    fun _ he => absurd he List.not_mem_nil⟩

theorem ordered_of_reachable {cfg : Config} {s : State} (h : (inbox cfg).Reachable s) :
    Ordered s := by
  have hall := LTS.System.invariant_with
    (J := fun s => Kinds s ∧ s.notes.Sound ∧ Joined s) (P := Ordered)
    (fun s hs => ⟨kinds_of_reachable hs, notes_of_reachable hs, joined_of_reachable hs⟩)
    (ordered_init cfg)
    (fun _ _ _ ⟨hk, hn, hj⟩ _ hs _ hstep => ordered_step hk hn hj hs hstep)
  exact hall s h

/-- A terminal entry ends what its sender pushed. -/
theorem eq_append_of_terminal {xs : List Envelope} {e : Envelope}
    (h : xs.Pairwise fun a _ => a.plain = true) (he : e ∈ xs) (hterm : e.plain = false) :
    xs = xs.filter Envelope.plain ++ [e] := by
  obtain ⟨front, back, rfl⟩ := List.append_of_mem he
  have hsplit : front ++ e :: back = (front ++ [e]) ++ back := by simp
  have hback : back = [] := by
    rw [hsplit] at h
    exact eq_nil_of_terminal h (List.mem_append_right _ (List.mem_singleton_self e)) hterm
  subst hback
  have hfront : front.filter Envelope.plain = front := by
    rw [List.filter_eq_self]
    intro a ha
    exact (List.pairwise_append.mp h).2.2 a ha e (List.mem_singleton_self e)
  rw [List.filter_append, hfront, List.filter_cons_of_neg (by rw [hterm]; simp)]
  simp

/-- What stays queued of an agent with a terminal entry ends with that entry. -/
theorem getLast_of_posted {s : State} (h : Ordered s) (hopen : s.box.closed = false)
    {c : NodeId} (hc : c ∈ s.notes.posted) {e : Envelope}
    (he : (ofSender c s.box.queue).getLast? = some e) : e.plain = false := by
  obtain ⟨a, ha, hterm, hfrom⟩ := mem_terminalSenders.mp hc
  have hmem : a ∈ ofSender c s.pushed := mem_ofSender.mpr ⟨ha, hfrom⟩
  -- The last envelope pushed is the last one queued.
  have hlast : (ofSender c s.pushed).getLast? = some e := by
    rw [← h.fifo hopen c, List.getLast?_append, he]
    rfl
  obtain ⟨front, hfront⟩ := List.getLast?_eq_some_iff.mp hlast
  rw [hfront] at hmem
  rcases List.mem_append.mp hmem with hmem | hmem
  · -- Every earlier one is plain.
    have hpair := h.last c
    rw [hfront, List.pairwise_append] at hpair
    rw [hpair.2.2 a hmem e (List.mem_singleton_self e)] at hterm
    cases hterm
  · rw [← List.mem_singleton.mp hmem]
    exact hterm

/-! ### Plain messages -/

/-- Pushing a terminal entry adds no plain message. -/
theorem plain_post_terminal {s t : State} {e : Envelope} (he : e.plain = false)
    (h : s.post e = some t) : t.pushed.filter Envelope.plain = s.pushed.filter Envelope.plain := by
  rw [(post_flight h).2.2.2.2.2.2.1, List.filter_append,
    List.filter_cons_of_neg (by rw [he]; simp)]
  simp

/-- Plain messages are accepted and pushed by the labels that say so. -/
theorem plain_step {cfg : Config} {s t : State} {l : Label} (hk : Kinds s)
    (h : step cfg s l = some t) (haccept : ∀ e, l ≠ .accept e) (hdeliver : ∀ e, l ≠ .deliver e) :
    t.pushed.filter Envelope.plain = s.pushed.filter Envelope.plain ∧ t.sending = s.sending := by
  cases fires_of_step h with
  | refused e => exact absurd rfl (haccept e)
  | accepted e hplain hsender hopen hroom => exact absurd rfl (haccept e)
  | deliver e hmem hpost => exact absurd rfl (hdeliver e)
  | notify c id o hkid hpost =>
    have hplain := plain_post_terminal (notice_plain cfg id o) hpost
    exact ⟨hplain, (post_flight hpost).1⟩
  | conclude e hmem hpost =>
    have hplain := plain_post_terminal (hk.staged e hmem) hpost
    exact ⟨hplain, (post_flight hpost).1⟩
  | _ => exact ⟨rfl, rfl⟩

theorem deliver_step {cfg : Config} {s t : State} {e : Envelope} (hk : Kinds s)
    (h : step cfg s (.deliver e) = some t) :
    t.pushed.filter Envelope.plain = s.pushed.filter Envelope.plain ++ [e] ∧
      t.sending = s.sending.erase e ∧ t.kids = s.kids := by
  cases fires_of_step h with
  | deliver e hmem hpost =>
    obtain ⟨hsending, -, hkids, -, -, -, hpushed, -⟩ := post_flight hpost
    refine ⟨?_, hsending, hkids⟩
    rw [hpushed, List.filter_append, List.filter_cons_of_pos (hk.sending e hmem)]
    rfl

theorem accept_step {cfg : Config} {s t : State} {e : Envelope}
    (h : step cfg s (.accept e) = some t) (hopen : s.box.closed = false)
    (hroom : s.box.plain + s.box.reserved < cfg.limits.mailboxCapacity)
    (hsender : ∀ k, s.kids e.from_ = some k → k.phase.isOpen = true) :
    t.sending = s.sending ++ [e] ∧ t.pushed = s.pushed ∧ t.kids = s.kids := by
  have hres : Mailbox.reserve s.box cfg.limits.mailboxCapacity =
      .ok { s.box with reserved := s.box.reserved + 1 } :=
    Mailbox.reserve_ok.mpr ⟨hopen, hroom, rfl⟩
  have hsender' : ((s.kids e.from_).map fun k => k.phase.isOpen).getD true = true := by
    cases hkid : s.kids e.from_ with
    | none => rfl
    | some k => exact hsender k hkid
  simp only [step, hres, hsender', if_true] at h
  split at h
  · obtain rfl := Option.some.inj h
    exact ⟨rfl, rfl, rfl⟩
  · cases h

/-- Where a descendant and its phase come from: it is new and open, or it was
    there, and a closed one was closed before or is closed by this step. -/
theorem kid_new {cfg : Config} {s t : State} {l : Label} (h : step cfg s l = some t)
    {c : NodeId} {k' : Kid} (hk' : t.kids c = some k') :
    (∃ k, s.kids c = some k ∧
      (k'.phase.isOpen = false → k.phase.isOpen = false ∨ l = .join c)) ∨
    (k'.phase.isOpen = true ∧ ∃ kin, l = .register c kin) := by
  have hsame : ∀ {u : State}, u.kids = s.kids → u.kids c = some k' →
      ∃ k, s.kids c = some k ∧
        (k'.phase.isOpen = false → k.phase.isOpen = false ∨ l = .join c) := by
    intro u hu hkid
    rw [hu] at hkid
    exact ⟨k', hkid, Or.inl⟩
  -- One descendant goes from one phase to the next.
  have hset : ∀ {u : State} {d : NodeId} {k k₂ : Kid}, u.kids = s.kids →
      s.kids d = some k →
      (k₂.phase.isOpen = false → k.phase.isOpen = false ∨ l = .join d) →
      (u.setKid d k₂).kids c = some k' →
      ∃ k, s.kids c = some k ∧
        (k'.phase.isOpen = false → k.phase.isOpen = false ∨ l = .join c) := by
    intro u d k k₂ hu hd hphase hkid
    simp only [State.setKid, hu] at hkid
    rcases kid_update hkid with ⟨rfl, rfl⟩ | ⟨-, hkid⟩
    · exact ⟨k, hd, hphase⟩
    · exact ⟨k', hkid, Or.inl⟩
  cases fires_of_step h with
  | deliver e hmem hpost => exact Or.inl (hsame (post_flight hpost).2.2.1 hk')
  | register d kin hnew =>
    simp only [State.setKid] at hk'
    rcases kid_update hk' with ⟨rfl, rfl⟩ | ⟨-, hkid⟩
    · right
      refine ⟨?_, kin, rfl⟩
      show (if kin = .node then Phase.registered else .running).isOpen = true
      split
      · rfl
      · rfl
    · exact Or.inl ⟨k', hkid, Or.inl⟩
  | expect d hkid =>
    have hopen : Phase.running.isOpen = false → Phase.registered.isOpen = false ∨
        Label.expect d = .join d := fun hno => Bool.noConfusion hno
    exact Or.inl (hset rfl hkid hopen hk')
  | join d kin hkid => exact Or.inl (hset rfl hkid (fun _ => Or.inr rfl) hk')
  | publish o kin hkid hjoined hkin =>
    exact Or.inl (hset rfl hkid (fun _ => Or.inl rfl) hk')
  | publishCell o hkid hjoined => exact Or.inl (hset rfl hkid (fun _ => Or.inl rfl) hk')
  | notify d id o hkid hpost =>
    rw [(post_flight hpost).2.2.1] at hk'
    exact Or.inl (hset rfl hkid (fun _ => Or.inl rfl) hk')
  | conclude e hmem hpost => exact Or.inl (hsame (post_flight hpost).2.2.1 hk')
  | _ => exact Or.inl (hsame (by rfl) hk')

end Kyora.Inbox
