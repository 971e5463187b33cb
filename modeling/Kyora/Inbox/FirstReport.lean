import Kyora.Inbox.Calls

/-! # First reports are not trimmed

  A report asks the mailbox several times, so what it relies on is an
  invariant of the agent: while a report runs nothing is handed over, and an
  agent that finished is concluded by its own notice or only by this report.
-/

namespace Kyora.Inbox

/-! ### Steps of the mailbox -/

/-- What is handed over shows in `seen`; the other tasks hand nothing over. -/
theorem seen_step {cfg : Config} {s t : State} {l : Label} (h : step cfg s l = some t)
    (hl : l.background = true ∨ l.own = true) :
    ∃ taken, t.delivered = s.delivered ++ taken ∧
      (∀ c, c ∈ t.box.seen ↔ c ∈ s.box.seen ∨ c ∈ terminalSenders taken) ∧
      (l.background = true → taken = [] ∧ t.items = s.items) := by
  have hsame : ∀ {u : State}, u.batches = s.batches → u.items = s.items →
      u.box.seen = s.box.seen → ∃ taken, u.delivered = s.delivered ++ taken ∧
        (∀ c, c ∈ u.box.seen ↔ c ∈ s.box.seen ∨ c ∈ terminalSenders taken) ∧
        (l.background = true → taken = [] ∧ u.items = s.items) := by
    intro u hbatches hitems hseen
    refine ⟨[], ?_, fun c => ?_, fun _ => ⟨rfl, hitems⟩⟩
    · rw [State.delivered, hbatches, List.append_nil]
      rfl
    · rw [hseen]
      simp [terminalSenders]
  have hpost : ∀ {u v : State} {e : Envelope}, u.post e = some v → v.box.seen = u.box.seen := by
    intro u v e hpush
    cases he : e.plain
    · rw [post_terminal he] at hpush
      rw [← Option.some.inj hpush]
      rfl
    · obtain ⟨-, ⟨-, rfl⟩ | ⟨-, rfl⟩⟩ := post_plain he hpush
      · rfl
      · rfl
  have htake : ∀ {pick : Envelope → Bool} {box : Mailbox.State} {b : Mailbox.Batch},
      l.background = false →
      Mailbox.take s.box cfg.limits.deliveryChars pick (Envelope.size cfg.names) =
        some (box, b) →
      ∃ taken, (s.handOver cfg box b).delivered = s.delivered ++ taken ∧
        (∀ c, c ∈ (s.handOver cfg box b).box.seen ↔
          c ∈ s.box.seen ∨ c ∈ terminalSenders taken) ∧
        (l.background = true → taken = [] ∧ (s.handOver cfg box b).items = s.items) := by
    intro pick box b hown htake
    obtain ⟨-, rfl, rfl⟩ := Mailbox.take_eq_some.mp htake
    refine ⟨_, List.flatten_concat, fun c => ?_, fun hback => ?_⟩
    · rw [mem_terminalSenders, ← Mailbox.mem_terminals]
      exact Finset.mem_union
    · rw [hown] at hback
      cases hback
  cases fires_of_step h with
  | deliver e hmem hpush =>
    obtain ⟨-, -, -, hbatches, hitems, -⟩ := post_flight hpush
    have hseen := hpost hpush
    exact hsame hbatches hitems hseen
  | notify c id o hkid hpush =>
    obtain ⟨-, -, -, hbatches, hitems, -⟩ := post_flight hpush
    have hseen := hpost hpush
    exact hsame hbatches hitems hseen
  | conclude e hmem hpush =>
    obtain ⟨-, -, -, hbatches, hitems, -⟩ := post_flight hpush
    have hseen := hpost hpush
    exact hsame hbatches hitems hseen
  | take pick htake' => exact htake rfl htake'
  | idleDeliver shut hqueue htake' => exact htake rfl htake'
  | charged o hfit => simp [Label.background, Label.own] at hl
  | saw c => simp [Label.background, Label.own] at hl
  | newTurn =>
    refine ⟨[], (List.append_nil _).symm, fun c => ?_, fun hback => ?_⟩
    · show c ∈ s.box.seen ↔ _
      simp [terminalSenders]
    · cases hback
  | _ => exact hsame rfl rfl rfl

/-- The outcome of `c` is published and any notice of its own was pushed. -/
def State.Finished (s : State) (c : NodeId) : Prop :=
  (∃ o, s.outcome c = some o) ∧
    ∀ p, s.kids c = some ⟨.node, p⟩ → c ∈ s.box.concluded

/-- What `wait` checks. -/
theorem finished_of_outcome {s : State} (h : s.notes.Sound) {c : NodeId} {o : Outcome}
    (hout : s.outcome c = some o) (hawait : c ∉ s.box.awaiting) : s.Finished c := by
  refine ⟨⟨o, hout⟩, fun p hkid => ?_⟩
  obtain ⟨k, hk, hphase⟩ := State.outcome_eq_some.mp hout
  rw [hkid, Option.some.injEq] at hk
  subst hk
  cases p with
  | published o' => exact absurd ((h.awaiting c).mpr (Or.inl ⟨_, hkid, rfl⟩)) hawait
  | ended o' =>
    have hposted := (h.node c _ hkid).2.mpr ⟨o', rfl⟩
    exact (h.concluded c).mpr (List.mem_append_left _ hposted)
  | _ => cases hphase

/-- A deeper descendant posts no notice here. -/
theorem finished_of_deeper {s : State} {c : NodeId} {o : Outcome}
    (hout : s.outcome c = some o) (hkin : (s.kids c).map Kid.kin = some .deeper) :
    s.Finished c := by
  refine ⟨⟨o, hout⟩, fun p hkid => ?_⟩
  rw [hkid, Option.map_some, Option.some.injEq] at hkin
  cases hkin

theorem concluded_mono {cfg : Config} {s t : State} {l : Label} (hk : Kinds s)
    (h : step cfg s l = some t) {c : NodeId} (hc : c ∈ s.box.concluded) :
    c ∈ t.box.concluded :=
  (notes_step hk h).mono.2 hc

theorem finished_step {cfg : Config} {s t : State} {l : Label} (hk : Kinds s)
    (h : step cfg s l = some t) {c : NodeId} (hc : s.Finished c) : t.Finished c := by
  obtain ⟨⟨o, hout⟩, hnode⟩ := hc
  refine ⟨⟨o, outcome_step h hout⟩, fun p hkid => ?_⟩
  -- It was registered as a node-owned child before, so its notice was pushed.
  obtain ⟨⟨kin, p'⟩, hkid', -⟩ := State.outcome_eq_some.mp hout
  obtain ⟨k, hk', hkin⟩ := kin_step h hkid'
  rw [hkid, Option.some.injEq] at hk'
  subst hk'
  cases hkin
  exact concluded_mono hk h (hnode p' hkid')

theorem reachable_finished {cfg : Config} {s t : State} {l : Label}
    (h : (inbox cfg).Reachable s) (hstep : step cfg s l = some t) :
    (inbox cfg).Reachable t ∧ ∀ c, s.Finished c → t.Finished c :=
  ⟨h.next hstep, fun _ hc => finished_step (kinds_of_reachable h) hstep hc⟩

/-- No other task concludes an agent that finished. -/
theorem concluded_background {cfg : Config} {s t : State} {l : Label} (hk : Kinds s)
    (hn : s.notes.Sound) (h : step cfg s l = some t) (hl : l.background = true) {c : NodeId}
    (hc : s.Finished c) (hnew : c ∉ s.box.concluded) : c ∉ t.box.concluded := by
  have hpost : ∀ {u v : State} {e : Envelope}, u.post e = some v → e.plain = false →
      u.box = s.box → e.from_ ≠ c → c ∉ v.box.concluded := by
    intro u v e hpush he hbox hne hmem
    rw [post_terminal he, Option.some.injEq] at hpush
    subst hpush
    rcases Finset.mem_insert.mp hmem with heq | hmem
    · exact hne heq.symm
    · rw [hbox] at hmem
      exact hnew hmem
  cases fires_of_step h with
  | deliver e hmem hpush =>
    obtain ⟨-, ⟨-, rfl⟩ | ⟨-, rfl⟩⟩ := post_plain (hk.sending e hmem) hpush
    · exact hnew
    · exact hnew
  | notify d id o hkid hpush =>
    have hnode : o.node = d := hk.outcome (by simp [State.outcome, hkid, Phase.outcome])
    refine hpost hpush (notice_plain cfg id o) rfl fun heq => ?_
    have hd : d = c := hnode.symm.trans heq
    rw [hd] at hkid
    exact hnew (hc.2 _ hkid)
  | conclude e hmem hpush =>
    -- A staged agent is concluded from its staging on.
    refine hpost hpush (hk.staged e hmem) rfl fun heq => hnew ?_
    rw [← heq]
    exact (hn.concluded _).mpr (List.mem_append_right _ (List.mem_map_of_mem hmem))
  | staged o id hout hopen hawait hconc => cases hl
  | take pick htake => cases hl
  | idleDeliver shut hqueue htake => cases hl
  | _ => exact hnew

/-! ### Acts of the agent -/

theorem chargeReport_eq_some {cfg : Config} {s t : State} {o : Outcome} :
    chargeReport cfg s o = some t ↔
      (s.box.turn = 0 ∨
        s.box.turn + (renderOutcome cfg o).length ≤ cfg.limits.deliveryChars) ∧
      t = { s with
        box := { s.box with turn := s.box.turn + (renderOutcome cfg o).length }
        items := s.items ++ [(renderOutcome cfg o).length] } := by
  unfold chargeReport
  cases hcharge : Mailbox.charge s.box (renderOutcome cfg o).length cfg.limits.deliveryChars with
  | mk box charged =>
    cases charged with
    | true =>
      obtain ⟨hfit, rfl⟩ := Mailbox.charge_true.mp hcharge
      simp only [Option.some.injEq, hfit, true_and, eq_comm]
    | false =>
      simp only [reduceCtorEq, false_iff]
      rintro ⟨hfit, -⟩
      rw [Mailbox.charge_true.mpr ⟨hfit, rfl⟩] at hcharge
      cases hcharge

/-- A charge hands nothing over. -/
theorem charge_frame {cfg : Config} {s t : State} {o : Outcome}
    (h : chargeReport cfg s o = some t) :
    t.box.seen = s.box.seen ∧ t.delivered = s.delivered ∧
      t.items = s.items ++ [(renderOutcome cfg o).length] := by
  obtain ⟨-, rfl⟩ := chargeReport_eq_some.mp h
  -- Unfolded first, so that the sizes are not compared.
  exact ⟨rfl, by unfold State.delivered; rfl, rfl⟩

theorem stageNotice_eq_some {cfg : Config} {s t : State} {o : Outcome} {id : Nat} :
    stageNotice cfg s o id = some t ↔
      (s.box.closed = false ∧ o.node ∉ s.box.awaiting ∧ o.node ∉ s.box.concluded) ∧
      t = { s with
        box := { s.box with
          concluded := insert o.node s.box.concluded
          awaiting := insert o.node s.box.awaiting }
        staged := s.staged ++ [notice cfg id o] } := by
  unfold stageNotice
  cases hstage : Mailbox.stage s.box o.node with
  | mk box staged =>
    cases staged with
    | true =>
      obtain ⟨hopen, hawait, hnew, rfl⟩ := Mailbox.stage_true.mp hstage
      simp only [Option.some.injEq, hopen, hawait, hnew, not_false_eq_true, and_self, true_and,
        eq_comm]
    | false =>
      simp only [reduceCtorEq, false_iff]
      rintro ⟨⟨hopen, hawait, hnew⟩, -⟩
      rw [Mailbox.stage_true.mpr ⟨hopen, hawait, hnew, rfl⟩] at hstage
      cases hstage

/-- The acts of an agent and the states they lead to. -/
inductive Acts (cfg : Config) (s : Agent) : Act → Agent → Prop where
  | background (l : Label) (i : State) (hl : l.background = true)
      (hstep : Inbox.step cfg s.inbox l = some i) :
      Acts cfg s (.other l) { s with inbox := i }
  | own (l : Label) (i : State) (hl : l.own = true) (hfree : s.doing = .free)
      (hstep : Inbox.step cfg s.inbox l = some i) :
      Acts cfg s (.other l) { s with inbox := i }
  | found (c : NodeId) (o : Outcome) (hfree : s.doing = .free)
      (hout : s.inbox.outcome c = some o) (hawait : c ∉ s.inbox.box.awaiting) :
      Acts cfg s (.found c) { s with found := s.found ++ [c] }
  | first (o : Outcome) (hfree : s.doing = .free) (hmay : s.mayReport o = true)
      (hnew : o.node ∉ s.inbox.box.seen) :
      Acts cfg s (.call o) { s with doing := .asking ⟨o, false, s.handed, s.inbox.items⟩ }
  | again (o : Outcome) (hfree : s.doing = .free) (hmay : s.mayReport o = true)
      (hseen : o.node ∈ s.inbox.box.seen) :
      Acts cfg s (.call o) { s with doing := .charging ⟨o, true, s.handed, s.inbox.items⟩ }
  | concluded (c : Call) {isOpen : Bool} {id : Nat} (hdoing : s.doing = .asking c)
      (hconc : c.outcome.node ∈ s.inbox.box.concluded) :
      Acts cfg s (.next isOpen id) (s.answer c .follows)
  | unconcluded (c : Call) {isOpen : Bool} {id : Nat} (hdoing : s.doing = .asking c)
      (hnew : c.outcome.node ∉ s.inbox.box.concluded) :
      Acts cfg s (.next isOpen id) { s with doing := .charging c }
  | repeated (c : Call) (i : State) {isOpen : Bool} {id : Nat} (hdoing : s.doing = .charging c)
      (hagain : c.again = true) (hcharge : chargeReport cfg s.inbox c.outcome = some i) :
      Acts cfg s (.next isOpen id) ({ s with inbox := i }.answer c .full)
  | charged (c : Call) (i : State) {isOpen : Bool} {id : Nat} (hdoing : s.doing = .charging c)
      (hagain : c.again = false) (hcharge : chargeReport cfg s.inbox c.outcome = some i) :
      Acts cfg s (.next isOpen id) { s with inbox := i, doing := .noting c }
  | shrunk (c : Call) {isOpen : Bool} {id : Nat} (hdoing : s.doing = .charging c)
      (hagain : c.again = true) (hcharge : chargeReport cfg s.inbox c.outcome = none) :
      Acts cfg s (.next isOpen id) (s.answer c .leftOut)
  | uncharged (c : Call) {isOpen : Bool} {id : Nat} (hdoing : s.doing = .charging c)
      (hagain : c.again = false) (hcharge : chargeReport cfg s.inbox c.outcome = none) :
      Acts cfg s (.next isOpen id) { s with doing := .staging c }
  | noted (c : Call) {isOpen : Bool} {id : Nat} (hdoing : s.doing = .noting c) :
      Acts cfg s (.next isOpen id) ({ s with
        inbox := { s.inbox with
          box := Mailbox.saw s.inbox.box c.outcome.node } }.answer c .full)
  | staged (c : Call) (i : State) {id : Nat} (hdoing : s.doing = .staging c)
      (hstage : stageNotice cfg s.inbox c.outcome id = some i) :
      Acts cfg s (.next true id) ({ s with inbox := i }.answer c .follows)
  | unstaged (c : Call) {isOpen : Bool} {id : Nat} (hdoing : s.doing = .staging c)
      (hstage : isOpen = true → stageNotice cfg s.inbox c.outcome id = none) :
      Acts cfg s (.next isOpen id) (s.answer c .leftOut)

/-- The list of acts is complete. -/
theorem acts_of_step {cfg : Config} {s t : Agent} {a : Act}
    (h : (agent cfg).step s a = some t) : Acts cfg s a t := by
  cases a with
  | other l =>
    simp only [agent, Agent.step] at h
    split at h
    · next hl =>
      obtain ⟨i, hstep, rfl⟩ := Option.map_eq_some_iff.mp h
      rcases hl with hl | ⟨hl, hfree⟩
      · exact .background l i hl hstep
      · exact .own l i hl hfree hstep
    · cases h
  | found c =>
    simp only [agent, Agent.step] at h
    split at h
    · next hfound =>
      obtain ⟨hfree, hsome, hawait⟩ := hfound
      obtain ⟨o, hout⟩ := Option.isSome_iff_exists.mp hsome
      obtain rfl := Option.some.inj h
      exact .found c o hfree hout hawait
    · cases h
  | call o =>
    simp only [agent, Agent.step] at h
    split at h
    · next hcall =>
      obtain ⟨hfree, hmay⟩ := hcall
      obtain rfl := Option.some.inj h
      by_cases hseen : o.node ∈ s.inbox.box.seen
      · have hagain : Mailbox.hasSeen s.inbox.box o.node = true := decide_eq_true hseen
        rw [hagain]
        exact .again o hfree hmay hseen
      · have hagain : Mailbox.hasSeen s.inbox.box o.node = false := decide_eq_false hseen
        rw [hagain]
        exact .first o hfree hmay hseen
    · cases h
  | next isOpen id =>
    simp only [agent, Agent.step, Agent.next] at h
    cases hdoing : s.doing with
    | free =>
      rw [hdoing] at h
      cases h
    | asking c =>
      simp only [hdoing] at h
      by_cases hconc : c.outcome.node ∈ s.inbox.box.concluded
      · rw [if_pos (show Mailbox.isConcluded _ _ = true from decide_eq_true hconc)] at h
        obtain rfl := Option.some.inj h
        exact .concluded c hdoing hconc
      · rw [if_neg (by simpa [Mailbox.isConcluded] using hconc)] at h
        obtain rfl := Option.some.inj h
        exact .unconcluded c hdoing hconc
    | charging c =>
      simp only [hdoing] at h
      cases hcharge : chargeReport cfg s.inbox c.outcome with
      | some i =>
        simp only [hcharge] at h
        split at h
        · next hagain =>
          obtain rfl := Option.some.inj h
          exact .repeated c i hdoing hagain hcharge
        · next hagain =>
          obtain rfl := Option.some.inj h
          exact .charged c i hdoing (Bool.eq_false_iff.mpr hagain) hcharge
      | none =>
        simp only [hcharge] at h
        split at h
        · next hagain =>
          obtain rfl := Option.some.inj h
          exact .shrunk c hdoing hagain hcharge
        · next hagain =>
          obtain rfl := Option.some.inj h
          exact .uncharged c hdoing (Bool.eq_false_iff.mpr hagain) hcharge
    | noting c =>
      simp only [hdoing] at h
      obtain rfl := Option.some.inj h
      exact .noted c hdoing
    | staging c =>
      simp only [hdoing] at h
      cases hstage : (if isOpen = true then stageNotice cfg s.inbox c.outcome id else none) with
      | some i =>
        simp only [hstage] at h
        obtain rfl := Option.some.inj h
        cases isOpen with
        | true => exact .staged c i hdoing hstage
        | false => cases hstage
      | none =>
        simp only [hstage] at h
        obtain rfl := Option.some.inj h
        refine .unstaged c hdoing fun hopen => ?_
        rw [if_pos hopen] at hstage
        exact hstage

/-! ### The invariant -/

/-- What a report in progress relies on. -/
structure Call.Sound (s : Agent) (c : Call) : Prop where
  outcome : s.inbox.outcome c.outcome.node = some c.outcome
  finished : s.inbox.Finished c.outcome.node
  again : c.again = true ↔ c.outcome.node ∈ c.handed
  /-- Nothing is handed over while the report runs. -/
  handed : s.handed = c.handed

/-- What the questions asked so far have settled. -/
def Doing.Sound (cfg : Config) (s : Agent) : Doing → Prop
  | .free => True
  | .asking c => c.Sound s ∧ c.again = false ∧ s.inbox.items = c.items
  | .charging c => c.Sound s ∧ s.inbox.items = c.items ∧
      (c.again = false → c.outcome.node ∉ s.inbox.box.concluded)
  | .noting c => c.Sound s ∧ c.again = false ∧
      s.inbox.items = c.items ++ [(renderOutcome cfg c.outcome).length]
  | .staging c => c.Sound s ∧ c.again = false ∧ s.inbox.items = c.items ∧
      c.outcome.node ∉ s.inbox.box.concluded ∧ c.items ≠ []

structure Agent.Sound (cfg : Config) (s : Agent) : Prop where
  inbox : (Inbox.inbox cfg).Reachable s.inbox
  /-- The set `seen` is what the model was handed. -/
  seen : ∀ c, c ∈ s.inbox.box.seen ↔ c ∈ s.handed
  found : ∀ c ∈ s.found, s.inbox.Finished c
  doing : s.doing.Sound cfg s

theorem mem_handed {s : Agent} {c : NodeId} :
    c ∈ s.handed ↔ c ∈ terminalSenders s.inbox.delivered ∨ c ∈ reportedFull s.returned :=
  List.mem_append

/-- A call in progress stays sound when the mailbox takes steps that hand
    nothing over. -/
theorem Call.Sound.inbox {cfg : Config} {s t : Agent} {c : Call} {l : Label} (h : c.Sound s)
    (hk : Kinds s.inbox) (hstep : Inbox.step cfg s.inbox l = some t.inbox)
    (hhanded : t.handed = s.handed) : c.Sound t :=
  ⟨outcome_step hstep h.outcome, finished_step hk hstep h.finished, h.again,
    hhanded.trans h.handed⟩

theorem Call.Sound.of_inbox {s t : Agent} {c : Call} (h : c.Sound s)
    (hinbox : t.inbox = s.inbox) (hreturned : t.returned = s.returned) : c.Sound t := by
  refine ⟨?_, ?_, h.again, ?_⟩
  · rw [hinbox]
    exact h.outcome
  · rw [hinbox]
    exact h.finished
  · unfold Agent.handed
    rw [hinbox, hreturned]
    exact h.handed

/-- The other tasks leave what a report has settled as it is. -/
theorem Doing.Sound.background {cfg : Config} {s t : Agent} {l : Label}
    (h : s.doing.Sound cfg s) (hk : Kinds s.inbox) (hn : s.inbox.notes.Sound)
    (hstep : Inbox.step cfg s.inbox l = some t.inbox) (hl : l.background = true)
    (hitems : t.inbox.items = s.inbox.items) (hhanded : t.handed = s.handed) :
    s.doing.Sound cfg t := by
  cases hdoing : s.doing with
  | free => trivial
  | asking c =>
    rw [hdoing] at h
    obtain ⟨hc, hagain, hc'⟩ := h
    exact ⟨hc.inbox hk hstep hhanded, hagain, hitems.trans hc'⟩
  | charging c =>
    rw [hdoing] at h
    obtain ⟨hc, hc', hnew⟩ := h
    refine ⟨hc.inbox hk hstep hhanded, hitems.trans hc', fun hagain => ?_⟩
    exact concluded_background hk hn hstep hl hc.finished (hnew hagain)
  | noting c =>
    rw [hdoing] at h
    obtain ⟨hc, hagain, hc'⟩ := h
    exact ⟨hc.inbox hk hstep hhanded, hagain, hitems.trans hc'⟩
  | staging c =>
    rw [hdoing] at h
    obtain ⟨hc, hagain, hc', hnew, hfull⟩ := h
    exact ⟨hc.inbox hk hstep hhanded, hagain, hitems.trans hc',
      concluded_background hk hn hstep hl hc.finished hnew, hfull⟩

/-- Steps of the mailbox outside of `report`, as far as the calls go. -/
theorem Agent.Sound.other {cfg : Config} {s : Agent} {i : State} {l : Label}
    (h : s.Sound cfg) (hl : l.background = true ∨ l.own = true)
    (hstep : Inbox.step cfg s.inbox l = some i)
    (hdoing : s.doing.Sound cfg { s with inbox := i }) :
    Agent.Sound cfg { s with inbox := i } := by
  have hk := kinds_of_reachable h.inbox
  obtain ⟨taken, hdelivered, hseen, -⟩ := seen_step hstep hl
  refine ⟨h.inbox.next hstep, fun c => ?_, fun c hc => finished_step hk hstep (h.found c hc),
    hdoing⟩
  rw [mem_handed]
  show c ∈ i.box.seen ↔ c ∈ terminalSenders i.delivered ∨ c ∈ reportedFull s.returned
  rw [hseen, h.seen, mem_handed, hdelivered, terminalSenders_append, List.mem_append]
  constructor
  · rintro ((hd | hr) | ht)
    · exact Or.inl (Or.inl hd)
    · exact Or.inr hr
    · exact Or.inl (Or.inr ht)
  · rintro ((hd | ht) | hr)
    · exact Or.inl (Or.inl hd)
    · exact Or.inr ht
    · exact Or.inl (Or.inr hr)

/-- Who may be reported has finished. -/
theorem Agent.Sound.mayReport {cfg : Config} {s : Agent} {o : Outcome} (h : s.Sound cfg)
    (hmay : s.mayReport o = true) :
    s.inbox.outcome o.node = some o ∧ s.inbox.Finished o.node := by
  obtain ⟨hout, hwho⟩ := of_decide_eq_true hmay
  rcases hwho with hfound | hdeeper
  · exact ⟨hout, h.found o.node hfound⟩
  · exact ⟨hout, finished_of_deeper hout hdeeper⟩

/-- A call just made knows whether the model was handed the outcome. -/
theorem Agent.Sound.call {cfg : Config} {s : Agent} {o : Outcome} (h : s.Sound cfg)
    (hmay : s.mayReport o = true) (doing : Doing) (again : Bool)
    (hagain : again = true ↔ o.node ∈ s.inbox.box.seen) :
    Call.Sound { s with doing } ⟨o, again, s.handed, s.inbox.items⟩ := by
  obtain ⟨hout, hfin⟩ := h.mayReport hmay
  exact ⟨hout, hfin, hagain.trans (h.seen o.node), rfl⟩

/-- A report that shows no full outcome adds nothing to what was handed over. -/
theorem reportedFull_concat (rs : List Returned) (r : Returned) :
    reportedFull (rs ++ [r]) =
      reportedFull rs ++ if r.shown = .full then [r.call.outcome.node] else [] := by
  unfold reportedFull
  rw [List.filter_append, List.map_append]
  by_cases hr : r.shown = .full
  · simp [hr]
  · simp [hr]

/-- A report returns and `seen` has what it showed in full. -/
theorem Agent.Sound.answer {cfg : Config} {s : Agent} {i : State} {c : Call}
    {shown : Reported} (h : s.Sound cfg) (hi : (Inbox.inbox cfg).Reachable i)
    (hdelivered : i.delivered = s.inbox.delivered)
    (hfinished : ∀ d, s.inbox.Finished d → i.Finished d)
    (hseen : ∀ d, d ∈ i.box.seen ↔
      d ∈ s.inbox.box.seen ∨ (shown = .full ∧ d = c.outcome.node)) :
    Agent.Sound cfg ({ s with inbox := i }.answer c shown) := by
  refine ⟨hi, fun d => ?_, fun d hd => hfinished d (h.found d hd), trivial⟩
  rw [mem_handed]
  show d ∈ i.box.seen ↔ d ∈ terminalSenders i.delivered ∨
    d ∈ reportedFull (s.returned ++ [⟨c, shown⟩])
  rw [hseen, h.seen, mem_handed, hdelivered, reportedFull_concat, List.mem_append, or_assoc]
  by_cases hfull : shown = .full
  · simp [hfull]
  · simp [hfull]

/-- The call that is charged was made with what is in `seen` now. -/
theorem Agent.Sound.again_iff {cfg : Config} {s : Agent} {c : Call} (h : s.Sound cfg)
    (hc : c.Sound s) : c.again = true ↔ c.outcome.node ∈ s.inbox.box.seen := by
  rw [hc.again, ← hc.handed, h.seen]

theorem sound_step {cfg : Config} {s t : Agent} {a : Act} (h : s.Sound cfg)
    (hstep : (agent cfg).step s a = some t) : t.Sound cfg := by
  have hk := kinds_of_reachable h.inbox
  have hn := notes_of_reachable h.inbox
  have hdoing := h.doing
  cases acts_of_step hstep with
  | background l i hl hinbox =>
    apply h.other (Or.inl hl) hinbox
    obtain ⟨taken, hdelivered, -, hnone⟩ := seen_step hinbox (Or.inl hl)
    obtain ⟨rfl, hitems⟩ := hnone hl
    refine hdoing.background hk hn hinbox hl hitems ?_
    show terminalSenders i.delivered ++ reportedFull s.returned = s.handed
    rw [hdelivered, List.append_nil]
    rfl
  | own l i hl hfree hinbox =>
    apply h.other (Or.inr hl) hinbox
    rw [hfree]
    trivial
  | found c o hfree hout hawait =>
    refine ⟨h.inbox, h.seen, fun d hd => ?_, ?_⟩
    · rcases List.mem_append.mp hd with hd | hd
      · exact h.found d hd
      · rw [List.mem_singleton.mp hd]
        exact finished_of_outcome hn hout hawait
    · show s.doing.Sound cfg _
      rw [hfree]
      trivial
  | first o hfree hmay hnew =>
    refine ⟨h.inbox, h.seen, h.found, ?_, rfl, rfl⟩
    exact h.call hmay _ false (by simp [hnew])
  | again o hfree hmay hseen =>
    refine ⟨h.inbox, h.seen, h.found, ?_, rfl, fun hno => by cases hno⟩
    exact h.call hmay _ true (by simp [hseen])
  | concluded c hasking hconc =>
    exact h.answer h.inbox rfl (fun d hd => hd) (by simp)
  | unconcluded c hasking hnew =>
    rw [hasking] at hdoing
    obtain ⟨hc, -, hitems⟩ := hdoing
    exact ⟨h.inbox, h.seen, h.found, hc.of_inbox rfl rfl, hitems, fun _ => hnew⟩
  | repeated c i hcharging hagain hcharge =>
    rw [hcharging] at hdoing
    obtain ⟨hi, hfin⟩ := reachable_finished h.inbox (step_charge hcharge)
    obtain ⟨hsame, hdelivered, -⟩ := charge_frame hcharge
    have hseen := (h.again_iff hdoing.1).mp hagain
    refine h.answer hi hdelivered hfin fun d => ?_
    rw [hsame, iff_self_or]
    rintro ⟨-, rfl⟩
    exact hseen
  | charged c i hcharging hagain hcharge =>
    rw [hcharging] at hdoing
    obtain ⟨hc, hitems, hnew⟩ := hdoing
    have hinbox := step_charge hcharge
    obtain ⟨hi, hfin⟩ := reachable_finished h.inbox hinbox
    obtain ⟨hsame, hdelivered, hmore⟩ := charge_frame hcharge
    have hhanded : Agent.handed { s with inbox := i, doing := .noting c } = s.handed := by
      unfold Agent.handed
      rw [hdelivered]
    refine ⟨hi, fun d => ?_, fun d hd => hfin d (h.found d hd), ?_, hagain, ?_⟩
    · rw [hhanded, ← h.seen]
      exact iff_of_eq (congrArg (d ∈ ·) hsame)
    · exact hc.inbox hk hinbox hhanded
    · rw [← hitems]
      exact hmore
  | shrunk c hcharging hagain hcharge =>
    exact h.answer h.inbox rfl (fun d hd => hd) (by simp)
  | uncharged c hcharging hagain hcharge =>
    rw [hcharging] at hdoing
    obtain ⟨hc, hitems, hnew⟩ := hdoing
    refine ⟨h.inbox, h.seen, h.found, hc.of_inbox rfl rfl, hagain, hitems, hnew hagain, ?_⟩
    -- The first item of a turn fits.
    intro hnil
    have hzero := (metered_of_reachable h.inbox).turn_eq_zero.mpr (hitems.trans hnil)
    rw [chargeReport_eq_some.mpr ⟨Or.inl hzero, rfl⟩] at hcharge
    cases hcharge
  | noted c hnoting =>
    have hinbox : Inbox.step cfg s.inbox (.saw c.outcome.node) = some _ := rfl
    obtain ⟨hi, hfin⟩ := reachable_finished h.inbox hinbox
    refine h.answer hi rfl hfin fun d => ?_
    show d ∈ insert c.outcome.node s.inbox.box.seen ↔ _
    rw [Finset.mem_insert, or_comm]
    simp
  | staged c i hstaging hstage =>
    rw [hstaging] at hdoing
    obtain ⟨hi, hfin⟩ := reachable_finished h.inbox (step_stage hdoing.1.outcome hstage)
    obtain ⟨-, rfl⟩ := stageNotice_eq_some.mp hstage
    refine h.answer hi rfl hfin fun d => ?_
    show d ∈ s.inbox.box.seen ↔ _
    simp
  | unstaged c hstaging hstage =>
    exact h.answer h.inbox rfl (fun d hd => hd) (by simp)

theorem sound_init_agent (cfg : Config) : (agent cfg).init.Sound cfg := by
  refine ⟨.init, fun c => ?_, fun c hc => ?_, trivial⟩
  · show c ∈ (∅ : Finset NodeId) ↔ c ∈ ([] : List NodeId)
    simp
  · cases hc

theorem sound_of_run {cfg : Config} {s : Agent} (h : (agent cfg).Reachable s) : s.Sound cfg :=
  LTS.System.invariant (sound_init_agent cfg) (fun _ _ _ hs _ hstep => sound_step hs hstep) s h

/-! ### What a report shows -/

/-- What holds when a report returns `r` and leads from `s` to `t`, while the
    agent's work is open and its mailbox not closed. -/
structure FirstReport (cfg : Config) (s t : Agent) (r : Returned) : Prop where
  /-- A first report shows the outcome in full, charged and remembered, or
      says that it follows, and then its entry is queued or being recorded. -/
  first : r.call.outcome.node ∉ r.call.handed →
    (r.shown = .full ∧
      t.inbox.items = r.call.items ++ [(renderOutcome cfg r.call.outcome).length] ∧
      t.inbox.box.turn = (r.call.items ++ [(renderOutcome cfg r.call.outcome).length]).sum ∧
      r.call.outcome.node ∈ t.inbox.box.seen) ∨
    (r.shown = .follows ∧ t.inbox.onItsWay r.call.outcome.node)
  /-- Only a repeat is left out. -/
  repeats : r.shown = .leftOut → r.call.outcome.node ∈ r.call.handed
  /-- The first report of a turn fits, unless the entry is on its way already. -/
  fits : r.call.items = [] → r.shown = .full ∨
    (r.shown = .follows ∧ s.inbox.onItsWay r.call.outcome.node ∧ t.inbox = s.inbox)

/-- A report that returns is the last one of the list. -/
theorem returned_answer {s t : Agent} {c : Call} {shown : Reported} {r : Returned}
    (h : (t.answer c shown).returned = s.returned ++ [r]) (hreturned : t.returned = s.returned) :
    r = ⟨c, shown⟩ := by
  have heq : s.returned ++ [⟨c, shown⟩] = s.returned ++ [r] := by
    rw [← h, ← hreturned]
    rfl
  exact (List.singleton_inj.mp (List.append_cancel_left heq)).symm

/-- In every history of deliveries, waits, cancels and reports a first report
    is not trimmed. -/
theorem first_report (cfg : Config) {s t : Agent} (h : (agent cfg).Reachable s) {id : Nat}
    (hstep : (agent cfg).step s (.next true id) = some t) {r : Returned}
    (hret : t.returned = s.returned ++ [r]) (hopen : t.inbox.box.closed = false) :
    FirstReport cfg s t r := by
  have hs := sound_of_run h
  have ht := sound_of_run (h.next hstep)
  have hn := notes_of_reachable hs.inbox
  have hdoing := hs.doing
  have hnone : t.returned ≠ s.returned := by
    intro heq
    rw [heq] at hret
    simpa using congrArg List.length hret
  cases acts_of_step hstep with
  | concluded c hasking hconc =>
    obtain rfl := returned_answer hret rfl
    rw [hasking] at hdoing
    obtain ⟨hc, hagain, -⟩ := hdoing
    have hseen : c.outcome.node ∉ s.inbox.box.seen := by
      rw [← hs.again_iff hc, hagain]
      exact Bool.false_ne_true
    have hway := onItsWay_of_concluded hn hopen hconc hseen
    exact ⟨fun _ => Or.inr ⟨rfl, hway⟩, (fun hno => by cases hno),
      fun _ => Or.inr ⟨rfl, hway, rfl⟩⟩
  | repeated c i hcharging hagain hcharge =>
    obtain rfl := returned_answer hret rfl
    rw [hcharging] at hdoing
    have hhanded := hdoing.1.again.mp hagain
    exact ⟨fun hno => absurd hhanded hno, (fun hno => by cases hno), fun _ => Or.inl rfl⟩
  | shrunk c hcharging hagain hcharge =>
    obtain rfl := returned_answer hret rfl
    rw [hcharging] at hdoing
    have hhanded := hdoing.1.again.mp hagain
    refine ⟨fun hno => absurd hhanded hno, fun _ => hhanded, fun hnil => ?_⟩
    have hzero := (metered_of_reachable hs.inbox).turn_eq_zero.mpr (hdoing.2.1.trans hnil)
    rw [chargeReport_eq_some.mpr ⟨Or.inl hzero, rfl⟩] at hcharge
    cases hcharge
  | noted c hnoting =>
    obtain rfl := returned_answer hret rfl
    rw [hnoting] at hdoing
    obtain ⟨-, -, hitems⟩ := hdoing
    have hturn := (metered_of_reachable ht.inbox).turn
    refine ⟨fun _ => Or.inl ⟨rfl, hitems, ?_, Finset.mem_insert_self _ _⟩,
      (fun hno => by cases hno), fun _ => Or.inl rfl⟩
    rw [hturn, ← hitems]
    rfl
  | staged c i hstaging hstage =>
    obtain rfl := returned_answer hret rfl
    rw [hstaging] at hdoing
    obtain ⟨-, -, -, -, hfull⟩ := hdoing
    obtain ⟨-, rfl⟩ := stageNotice_eq_some.mp hstage
    have hway : ∀ {i : State} {e : Envelope}, i.staged = s.inbox.staged ++ [e] →
        e.from_ = c.outcome.node → i.onItsWay c.outcome.node := by
      intro i e heq hfrom
      refine Or.inr ⟨e, ?_, hfrom⟩
      rw [heq]
      exact List.mem_append_right _ List.mem_cons_self
    exact ⟨fun _ => Or.inr ⟨rfl, hway rfl rfl⟩, (fun hno => by cases hno),
      fun hnil => absurd hnil hfull⟩
  | unstaged c hstaging hstage =>
    -- An agent that finished and is not concluded can be staged.
    rw [hstaging] at hdoing
    obtain ⟨hc, -, -, hnew, -⟩ := hdoing
    have hawait : c.outcome.node ∉ s.inbox.box.awaiting := by
      intro hawait
      rcases (hn.awaiting c.outcome.node).mp hawait with ⟨p, hkid, -⟩ | hrec
      · exact hnew (hc.finished.2 p hkid)
      · exact hnew ((hn.concluded c.outcome.node).mpr (List.mem_append_right _ hrec))
    have hstill : s.inbox.box.closed = false := hopen
    have hno := hstage rfl
    rw [stageNotice_eq_some.mpr ⟨⟨hstill, hawait, hnew⟩, rfl⟩] at hno
    cases hno
  | _ => exact absurd rfl hnone

/-- A deeper descendant is reported twice, across a turn boundary and before
    the entry that the first report staged is recorded. -/
def lateActs : List Act :=
  let m : Envelope := ⟨0, 7, 1, .message, "hello", none, none⟩
  let o : Outcome := ⟨2, .completed, "done"⟩
  [.other (.register 2 .deeper), .other (.join 2), .other (.publish o),
    .other (.accept m), .other (.deliver m), .other (.take .all),
    .call o, .next true 1, .next true 1, .next true 1, .other .newTurn, .call o]

/-- Two answers to one descendant, the second one before its turn handed
    anything over. -/
def lateReturned : List Returned :=
  let o : Outcome := ⟨2, .completed, "done"⟩
  [⟨⟨o, false, [], [32]⟩, .follows⟩, ⟨⟨o, false, [], []⟩, .follows⟩]

theorem late_run : ∃ s t, (agent tightConfig).Reachable s ∧
    (agent tightConfig).step s (.next true 2) = some t ∧
    s.returned = lateReturned.take 1 ∧ t.returned = lateReturned ∧
    t.inbox.box.closed = false := by
  have hrun : ((agent tightConfig).run (agent tightConfig).init lateActs).bind (fun s =>
      ((agent tightConfig).step s (.next true 2)).map fun t =>
        (s.returned, t.returned, t.inbox.box.closed)) =
      some (lateReturned.take 1, lateReturned, false) := by decide +kernel
  obtain ⟨s, hs, hnext⟩ := Option.bind_eq_some_iff.mp hrun
  obtain ⟨t, ht, heq⟩ := Option.map_eq_some_iff.mp hnext
  simp only [Prod.mk.injEq] at heq
  exact ⟨s, t, LTS.System.reachable_of_run hs, ht, heq⟩

/-- The first report of a turn does not always fit: its entry may be staged
    already. -/
theorem first_report_deferred : ∃ s t r id, (agent tightConfig).Reachable s ∧
    (agent tightConfig).step s (.next true id) = some t ∧
    t.returned = s.returned ++ [r] ∧ t.inbox.box.closed = false ∧
    r.call.items = [] ∧ r.call.outcome.node ∉ r.call.handed ∧ r.shown ≠ .full := by
  obtain ⟨s, t, hs, hstep, hbefore, hafter, hopen⟩ := late_run
  refine ⟨s, t, ⟨⟨⟨2, .completed, "done"⟩, false, [], []⟩, .follows⟩, 2, hs, hstep, ?_, hopen,
    rfl, ?_, ?_⟩
  · rw [hbefore, hafter]
    rfl
  · exact List.not_mem_nil
  · decide

theorem first_report_late : ∃ s t r, r.shown = .follows ∧ r.call.items = [] ∧
    FirstReport tightConfig s t r := by
  obtain ⟨s, t, hs, hstep, hbefore, hafter, hopen⟩ := late_run
  refine ⟨s, t, ⟨⟨⟨2, .completed, "done"⟩, false, [], []⟩, .follows⟩, rfl, rfl, ?_⟩
  refine first_report tightConfig hs hstep ?_ hopen
  rw [hbefore, hafter]
  rfl

end Kyora.Inbox
