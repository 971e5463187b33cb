import Kyora.Agents.Steps

/-! # Order of a sender's messages

  A sender's chain pushes its messages in the order their sends were accepted,
  and the join of its tasks puts all of them before its terminal entry. With
  the order each mailbox keeps, a recipient is handed the messages of a sender
  in that order, and its terminal entry last.
-/

namespace Kyora.Agents

open Kyora.Inbox (ofSender)

/-! ### Life of an agent -/

/-- What the inboxes show of an agent agrees with its work. -/
structure Life (s : State) : Prop where
  known : ∀ {a c : NodeId} {k : Inbox.Kid}, (s.inbox a).kids c = some k →
    ∃ agent, s.agents c = some agent ∧ (agent.closed = false → k.phase.isOpen = true)
  /-- An agent that has published has pushed all its sends. -/
  published : ∀ {a c : NodeId} {o : Inbox.Outcome}, (s.inbox a).outcome c = some o →
    ∃ agent, s.agents c = some agent ∧ agent.closed = true ∧
      Chain.unfinished agent.sends = []

theorem setAgent_agents (s : State) (c d : NodeId) (agent : Agent) :
    (s.setAgent c agent).agents d = if d = c then some agent else s.agents d := by
  unfold State.setAgent
  by_cases hd : d = c
  · subst hd
    simp
  · simp [hd]

/-- An agent goes on: nothing is opened again, and a closed agent with all its
    sends pushed stays so. -/
def Agent.Later (agent agent' : Agent) : Prop :=
  (agent'.closed = false → agent.closed = false) ∧
    (agent.closed = true → Chain.unfinished agent.sends = [] →
      Chain.unfinished agent'.sends = [])

/-- The life of the agents after the directory moved on and the inboxes made
    steps that close nothing and publish nothing. -/
theorem Life.later {cfg : Config} {s t : State} (h : Life s)
    (hreach : ∀ a, (Inbox.inbox (cfg.inbox a)).Reachable (s.inbox a))
    {ok : Inbox.Label → Prop} (hran : ∀ a, Ran (cfg.inbox a) ok (s.inbox a) (t.inbox a))
    (hlater : ∀ c agent, s.agents c = some agent →
      ∃ agent', t.agents c = some agent' ∧ agent.Later agent')
    (hregister : ∀ c kin, ok (.register c kin) → ∃ agent, t.agents c = some agent)
    (hjoin : ∀ c, ok (.join c) → ∃ agent, t.agents c = some agent ∧ agent.closed = true)
    (hpublish : ∀ o, ok (.publish o) → ∃ agent, t.agents o.node = some agent ∧
      agent.closed = true ∧ Chain.unfinished agent.sends = []) : Life t := by
  constructor
  · intro a c k hk
    refine Ran.keeps (P := fun i => ∀ {k}, i.kids c = some k → ∃ agent,
      t.agents c = some agent ∧ (agent.closed = false → k.phase.isOpen = true))
      (fun i l i' _ hl hi hstep k hk => ?_) (hran a) (hreach a) (fun {k} hk => ?_) hk
    · rcases Inbox.kid_new hstep hk with ⟨k₀, hk₀, hphase⟩ | ⟨hopen, kin, rfl⟩
      · obtain ⟨agent, hagent, hview⟩ := hi hk₀
        refine ⟨agent, hagent, fun hclosed => ?_⟩
        rw [← Bool.not_eq_false]
        intro hshut
        rcases hphase hshut with hbefore | rfl
        · rw [hview hclosed] at hbefore
          cases hbefore
        · obtain ⟨agent', hagent', hdone⟩ := hjoin c hl
          obtain rfl : agent = agent' := Option.some.inj (hagent.symm.trans hagent')
          rw [hdone] at hclosed
          cases hclosed
      · obtain ⟨agent, hagent⟩ := hregister c kin hl
        exact ⟨agent, hagent, fun _ => hopen⟩
    · obtain ⟨agent, hagent, hview⟩ := h.known hk
      obtain ⟨agent', hagent', hlate⟩ := hlater c agent hagent
      exact ⟨agent', hagent', fun hopen => hview (hlate.1 hopen)⟩
  · intro a c o ho
    refine Ran.keeps (P := fun i => ∀ {o}, i.outcome c = some o → ∃ agent,
      t.agents c = some agent ∧ agent.closed = true ∧ Chain.unfinished agent.sends = [])
      (fun i l i' _ hl hi hstep o ho => ?_) (hran a) (hreach a) (fun {o} ho => ?_) ho
    · rcases Inbox.outcome_new hstep ho with hold | ⟨rfl, rfl⟩
      · exact hi hold
      · exact hpublish o hl
    · obtain ⟨agent, hagent, hclosed, hdone⟩ := h.published ho
      obtain ⟨agent', hagent', hlate⟩ := hlater c agent hagent
      refine ⟨agent', hagent', ?_, hlate.2 hclosed hdone⟩
      rw [← Bool.not_eq_false]
      intro hopen
      rw [hlate.1 hopen] at hclosed
      cases hclosed

/-- A directory that is left as it is. -/
theorem later_refl {s t : State} (hagents : t.agents = s.agents) (c : NodeId) (agent : Agent)
    (h : s.agents c = some agent) : ∃ agent', t.agents c = some agent' ∧ agent.Later agent' := by
  refine ⟨agent, ?_, fun hopen => hopen, fun _ hdone => hdone⟩
  rw [hagents]
  exact h

/-- A directory in which one agent goes on. -/
theorem later_setAgent {s t : State} (hagents : t.agents = s.agents) {me : NodeId}
    {self self' : Agent} (hself : s.agents me = some self) (hlate : self.Later self')
    (c : NodeId) (agent : Agent) (h : s.agents c = some agent) :
    ∃ agent', (t.setAgent me self').agents c = some agent' ∧ agent.Later agent' := by
  rw [setAgent_agents]
  split
  · next hc =>
    subst hc
    obtain rfl : agent = self := Option.some.inj (h.symm.trans hself)
    exact ⟨self', rfl, hlate⟩
  · exact later_refl hagents c agent h

theorem life_step {cfg : Config} {s t : State}
    (hreach : ∀ a, (Inbox.inbox (cfg.inbox a)).Reachable (s.inbox a)) (h : Life s)
    (hstep : Fires cfg s t) : Life t := by
  cases hstep with
  | refused => exact h
  | quiet hacted =>
    apply h.later hreach hacted.ran (later_refl hacted.agents)
    · intro c kin hok
      cases hok
    · intro c hok
      cases hok
    · intro o hok
      cases hok
  | spawned p c hnew hlt hparent hacted =>
    refine h.later hreach (fun a => hacted.ran a) (fun d agent hd => ?_) (fun d kin hok => ?_)
      (fun d hok => ?_) (fun o hok => ?_)
    · have hdc : d ≠ c := by
        intro hdc
        rw [hdc, hnew] at hd
        cases hd
      rw [setAgent_agents, if_neg hdc]
      exact later_refl hacted.agents d agent hd
    · obtain ⟨kin', hlabel⟩ := hok
      obtain ⟨rfl, -⟩ := Inbox.Label.register.inj hlabel
      exact ⟨_, by rw [setAgent_agents, if_pos rfl]⟩
    · obtain ⟨kin', hlabel⟩ := hok
      cases hlabel
    · obtain ⟨kin', hlabel⟩ := hok
      cases hlabel
  | sent agent e hagent hopen hplain hid hbox hroom hinbox =>
    -- The sender is open, so its new send takes back nothing.
    have hlate : agent.Later { agent with sends := Chain.submit agent.sends e } :=
      ⟨fun hnot => hnot, fun hclosed => by rw [hopen] at hclosed; cases hclosed⟩
    have hran : ∀ a, Ran (cfg.inbox a) (fun l => l = .accept e) (s.inbox a) _ :=
      ran_update rfl hinbox
    refine h.later hreach hran (later_setAgent rfl hagent hlate) ?_ ?_ ?_
    · intro c kin hok
      cases hok
    · intro c hok
      cases hok
    · intro o hok
      cases hok
  | recorded me agent i sends hagent hstart =>
    have hlate : agent.Later { agent with sends } :=
      ⟨fun hnot => hnot, fun _ hdone => absurd hdone (Chain.unfinished_of_start hstart)⟩
    have hran : ∀ a, Ran (cfg.inbox a) (fun _ => False) (s.inbox a) (s.inbox a) :=
      fun a => .refl _
    refine h.later hreach hran (later_setAgent rfl hagent hlate) ?_ ?_ ?_
    · intro c kin hok
      cases hok
    · intro c hok
      cases hok
    · intro o hok
      cases hok
  | pushed me agent i e sends hagent hfinish hinbox =>
    have hlate : agent.Later { agent with sends } :=
      ⟨fun hnot => hnot, fun _ hdone => absurd hdone
        (List.ne_nil_of_mem (Chain.mem_unfinished_of_finish hfinish))⟩
    have hran : ∀ a, Ran (cfg.inbox a) (fun l => l = .deliver e) (s.inbox a) _ :=
      ran_update rfl hinbox
    refine h.later hreach hran (later_setAgent rfl hagent hlate) ?_ ?_ ?_
    · intro c kin hok
      cases hok
    · intro c hok
      cases hok
    · intro o hok
      cases hok
  | closed me agent hagent hopen hacted =>
    have hlate : agent.Later { agent with closed := true } :=
      ⟨(fun hnot => by cases hnot), fun _ hdone => hdone⟩
    refine h.later hreach hacted.ran (later_setAgent hacted.agents hagent hlate) ?_ ?_ ?_
    · intro c kin hok
      cases hok
    · intro c hok
      obtain rfl := Inbox.Label.join.inj hok
      exact ⟨_, by rw [setAgent_agents, if_pos rfl], rfl⟩
    · intro o hok
      cases hok
  | published o agent hagent hclosed hjoined hacted =>
    apply h.later hreach hacted.ran (later_refl hacted.agents)
    · intro c kin hok
      cases hok
    · intro c hok
      cases hok
    · intro o' hok
      obtain rfl := Inbox.Label.publish.inj hok
      refine ⟨agent, ?_, hclosed, hjoined⟩
      rw [hacted.agents]
      exact hagent

theorem life_init : Life State.init :=
  ⟨(fun hk => by cases hk), (fun ho => by cases ho)⟩

theorem life_of_reachable {cfg : Config} {s : State} (h : (agents cfg).Reachable s) : Life s :=
  LTS.System.invariant_with
    (J := fun s => ∀ a, (Inbox.inbox (cfg.inbox a)).Reachable (s.inbox a))
    (fun _ hs => inbox_reachable hs) life_init
    (fun _ _ _ hreach _ hs _ hstep => life_step hreach hs (fires_of_step hstep)) s h

/-! ### Messages -/

theorem sends_of_agent {s : State} {c : NodeId} {agent : Agent}
    (h : s.agents c = some agent) : s.sends c = agent.sends := by
  unfold State.sends
  rw [h]

theorem sends_setAgent (s : State) (c d : NodeId) (agent : Agent) :
    (s.setAgent c agent).sends d = if d = c then agent.sends else s.sends d := by
  unfold State.sends
  rw [setAgent_agents]
  by_cases hd : d = c
  · rw [if_pos hd, if_pos hd]
  · rw [if_neg hd, if_neg hd]

/-- The accepted messages and where they are: each sender's chain is in order,
    its done part is what each mailbox was given, and the rest is on its way. -/
structure Messages (s : State) : Prop where
  chained : ∀ c, Chain.Chained (s.sends c)
  own : ∀ c, ∀ e ∈ Chain.items (s.sends c),
    e.from_ = c ∧ e.plain = true ∧ e.id < s.nextMessage
  increasing : ∀ c, (Chain.items (s.sends c)).Pairwise fun a b => a.id < b.id
  pushed : ∀ c r, ofSender c ((s.inbox r).pushed.filter Envelope.plain) =
    (Chain.finished (s.sends c)).filter fun e => e.to_ == r
  sending : ∀ c r, (ofSender c (s.inbox r).sending).Perm
    ((Chain.unfinished (s.sends c)).filter fun e => e.to_ == r)

/-- Steps that move no message. -/
theorem Messages.calm {s t : State} (h : Messages s)
    (hchained : ∀ c, Chain.Chained (t.sends c))
    (hitems : ∀ c, Chain.items (t.sends c) = Chain.items (s.sends c))
    (hfinished : ∀ c, Chain.finished (t.sends c) = Chain.finished (s.sends c))
    (hunfinished : ∀ c, Chain.unfinished (t.sends c) = Chain.unfinished (s.sends c))
    (hnext : t.nextMessage = s.nextMessage)
    (hinbox : ∀ r, (t.inbox r).pushed.filter Envelope.plain =
      (s.inbox r).pushed.filter Envelope.plain ∧ (t.inbox r).sending = (s.inbox r).sending) :
    Messages t := by
  refine ⟨hchained, fun c => ?_, fun c => ?_, fun c r => ?_, fun c r => ?_⟩
  · rw [hitems, hnext]
    exact h.own c
  · rw [hitems]
    exact h.increasing c
  · rw [hfinished, (hinbox r).1]
    exact h.pushed c r
  · rw [hunfinished, (hinbox r).2]
    exact h.sending c r

/-- Labels that accept and deliver nothing move no message. -/
theorem ran_calm {cfg : Inbox.Config} {ok : Inbox.Label → Prop} {i i' : Inbox.State}
    (h : Ran cfg ok i i') (hi : (Inbox.inbox cfg).Reachable i)
    (hok : ∀ l, ok l → (∀ e, l ≠ .accept e) ∧ ∀ e, l ≠ .deliver e) :
    i'.pushed.filter Envelope.plain = i.pushed.filter Envelope.plain ∧
      i'.sending = i.sending := by
  refine Ran.keeps (P := fun j => j.pushed.filter Envelope.plain =
    i.pushed.filter Envelope.plain ∧ j.sending = i.sending)
    (fun j l j' hj hl hsame hstep => ?_) h hi ⟨rfl, rfl⟩
  obtain ⟨hpushed, hsending⟩ :=
    Inbox.plain_step (Inbox.kinds_of_reachable hj) hstep (hok l hl).1 (hok l hl).2
  exact ⟨hpushed.trans hsame.1, hsending.trans hsame.2⟩

/-- A new directory entry, or a closed one, moves no message either. -/
theorem Messages.acted {cfg : Config} {s t u : State} (h : Messages s)
    (hreach : ∀ a, (Inbox.inbox (cfg.inbox a)).Reachable (s.inbox a))
    {ok : Inbox.Label → Prop} (hacted : Acted cfg ok s t)
    (hok : ∀ l, ok l → (∀ e, l ≠ .accept e) ∧ ∀ e, l ≠ .deliver e)
    (hsends : ∀ c, u.sends c = s.sends c) (hinbox : u.inbox = t.inbox)
    (hnext : u.nextMessage = t.nextMessage) : Messages u := by
  apply h.calm
  · intro c
    rw [hsends]
    exact h.chained c
  · intro c
    rw [hsends]
  · intro c
    rw [hsends]
  · intro c
    rw [hsends]
  · exact hnext.trans hacted.nextMessage
  · intro r
    rw [hinbox]
    exact ran_calm (hacted.ran r) (hreach r) hok

theorem Messages.sent {s : State} (h : Messages s) {agent : Agent} {e : Envelope}
    {i : Inbox.State} (hagent : s.agents e.from_ = some agent) (hplain : e.plain = true)
    (hid : s.nextMessage ≤ e.id) (hsending : i.sending = (s.inbox e.to_).sending ++ [e])
    (hpushed : i.pushed = (s.inbox e.to_).pushed) :
    Messages ({ s with
      inbox := Function.update s.inbox e.to_ i
      nextMessage := e.id + 1 }.setAgent e.from_
        { agent with sends := Chain.submit agent.sends e }) := by
  have hold := sends_of_agent hagent
  have hsends : ∀ c, State.sends ({ s with
      inbox := Function.update s.inbox e.to_ i
      nextMessage := e.id + 1 }.setAgent e.from_
        { agent with sends := Chain.submit agent.sends e }) c =
      if c = e.from_ then Chain.submit (s.sends c) e else s.sends c := by
    intro c
    rw [sends_setAgent]
    split
    · next hc => rw [hc, hold]
    · rfl
  refine ⟨fun c => ?_, fun c => ?_, fun c => ?_, fun c r => ?_, fun c r => ?_⟩
  · rw [hsends]
    split
    · exact Chain.submit_chained (h.chained c) e
    · exact h.chained c
  · intro a ha
    have hlt : ∀ a ∈ Chain.items (s.sends c), a.id < e.id + 1 := by
      intro a ha
      have hbefore := (h.own c a ha).2.2
      omega
    rw [hsends] at ha
    split at ha
    · next hc =>
      rw [Chain.items_submit] at ha
      rcases List.mem_append.mp ha with ha | ha
      · exact ⟨(h.own c a ha).1, (h.own c a ha).2.1, hlt a ha⟩
      · rw [List.mem_singleton.mp ha]
        exact ⟨hc.symm, hplain, Nat.lt_succ_self _⟩
    · exact ⟨(h.own c a ha).1, (h.own c a ha).2.1, hlt a ha⟩
  · rw [hsends]
    split
    · rw [Chain.items_submit, List.pairwise_append]
      refine ⟨h.increasing c, List.pairwise_singleton _ _, fun a ha b hb => ?_⟩
      rw [List.mem_singleton.mp hb]
      exact Nat.lt_of_lt_of_le (h.own c a ha).2.2 hid
    · exact h.increasing c
  · have hfinished := h.pushed c r
    rw [hsends]
    show ofSender c ((Function.update s.inbox e.to_ i r).pushed.filter Envelope.plain) = _
    by_cases hr : r = e.to_
    · subst hr
      rw [Function.update_self, hpushed]
      split
      · rw [Chain.finished_submit]
        exact hfinished
      · exact hfinished
    · rw [Function.update_of_ne hr]
      split
      · rw [Chain.finished_submit]
        exact hfinished
      · exact hfinished
  · have hperm := h.sending c r
    rw [hsends]
    show (ofSender c (Function.update s.inbox e.to_ i r).sending).Perm _
    by_cases hr : r = e.to_
    · subst hr
      rw [Function.update_self, hsending, Inbox.ofSender_append, Inbox.ofSender_singleton]
      split
      · next hc =>
        subst hc
        rw [if_pos rfl, Chain.unfinished_submit, List.filter_append,
          List.filter_cons_of_pos (by simp)]
        exact hperm.append_right [e]
      · next hc =>
        rw [if_neg (fun heq => hc heq.symm), List.append_nil]
        exact hperm
    · rw [Function.update_of_ne hr]
      split
      · rw [Chain.unfinished_submit, List.filter_append,
          List.filter_cons_of_neg (by simpa using fun heq => hr heq.symm)]
        simpa using hperm
      · exact hperm

theorem Messages.push {s : State} (h : Messages s) {me : NodeId} {agent : Agent} {k : Nat}
    {e : Envelope} {sends : List (Chain.Task Envelope)} {i : Inbox.State}
    (hagent : s.agents me = some agent) (hfinish : Chain.finish agent.sends k = some (e, sends))
    (hpushed : i.pushed.filter Envelope.plain =
      (s.inbox e.to_).pushed.filter Envelope.plain ++ [e])
    (hsending : i.sending = (s.inbox e.to_).sending.erase e) :
    Messages ({ s with inbox := Function.update s.inbox e.to_ i }.setAgent me
      { agent with sends }) := by
  have hold := sends_of_agent hagent
  rw [← hold] at hfinish
  obtain ⟨hchained, hfinished, hunfinished, hitems⟩ :=
    Chain.finish_chained (h.chained me) hfinish
  -- The message that is pushed is the sender's own.
  have hfrom : e.from_ = me := by
    have hmem : e ∈ Chain.items (s.sends me) := by
      rw [← Chain.finished_append_unfinished (h.chained me), hunfinished]
      exact List.mem_append_right _ List.mem_cons_self
    exact (h.own me e hmem).1
  have hsends : ∀ c, State.sends ({ s with
      inbox := Function.update s.inbox e.to_ i }.setAgent me { agent with sends }) c =
      if c = me then sends else s.sends c := fun c => sends_setAgent _ _ _ _
  refine ⟨fun c => ?_, fun c => ?_, fun c => ?_, fun c r => ?_, fun c r => ?_⟩
  · rw [hsends]
    split
    · exact hchained
    · exact h.chained c
  · rw [hsends]
    split
    · next hc =>
      rw [hitems, hc]
      exact h.own me
    · exact h.own c
  · rw [hsends]
    split
    · rw [hitems]
      exact h.increasing me
    · exact h.increasing c
  · have hbefore := h.pushed c r
    rw [hsends]
    show ofSender c ((Function.update s.inbox e.to_ i r).pushed.filter Envelope.plain) = _
    by_cases hr : r = e.to_
    · subst hr
      rw [Function.update_self, hpushed, Inbox.ofSender_append, Inbox.ofSender_singleton,
        hbefore]
      split
      · next hc =>
        rw [hfrom] at hc
        rw [if_pos hc.symm, hfinished, List.filter_append, ← hc]
        simp
      · next hc =>
        rw [hfrom] at hc
        rw [if_neg (fun heq => hc heq.symm), List.append_nil]
    · rw [Function.update_of_ne hr, hbefore]
      split
      · next hc =>
        rw [hfinished, List.filter_append, hc,
          List.filter_cons_of_neg (by simpa using fun heq => hr heq.symm)]
        simp
      · rfl
  · have hbefore := h.sending c r
    rw [hsends]
    show (ofSender c (Function.update s.inbox e.to_ i r).sending).Perm _
    by_cases hr : r = e.to_
    · subst hr
      rw [Function.update_self, hsending]
      have herase : ofSender c ((s.inbox e.to_).sending.erase e) =
          (ofSender c (s.inbox e.to_).sending).erase e := (List.erase_filter).symm
      rw [herase]
      split
      · next hc =>
        subst hc
        have hcons := hbefore.erase e
        rw [hunfinished, List.filter_cons_of_pos (by simp), List.erase_cons_head] at hcons
        exact hcons
      · next hc =>
        have hnot : e ∉ ofSender c (s.inbox e.to_).sending := fun hmem =>
          hc ((Inbox.mem_ofSender.mp hmem).2.symm.trans hfrom)
        rw [List.erase_of_not_mem hnot]
        exact hbefore
    · rw [Function.update_of_ne hr]
      split
      · next hc =>
        subst hc
        rw [hunfinished, List.filter_cons_of_neg (by simpa using fun heq => hr heq.symm)]
          at hbefore
        exact hbefore
      · exact hbefore

theorem messages_step {cfg : Config} {s t : State}
    (hreach : ∀ a, (Inbox.inbox (cfg.inbox a)).Reachable (s.inbox a)) (hlife : Life s)
    (h : Messages s) (hstep : Fires cfg s t) : Messages t := by
  cases hstep with
  | refused => exact h
  | quiet hacted =>
    refine h.acted hreach hacted (fun l hl => ⟨?_, ?_⟩) (fun c => ?_) rfl rfl
    · rintro e rfl
      cases hl
    · rintro e rfl
      cases hl
    · unfold State.sends
      rw [hacted.agents]
  | spawned p c hnew hlt hparent hacted =>
    refine h.acted hreach hacted (fun l hl => ⟨?_, ?_⟩) (fun d => ?_) rfl rfl
    · rintro e rfl
      obtain ⟨kin, hkin⟩ := hl
      cases hkin
    · rintro e rfl
      obtain ⟨kin, hkin⟩ := hl
      cases hkin
    · rw [sends_setAgent]
      unfold State.sends
      split
      · next hd => rw [hd, hnew]
      · rw [hacted.agents]
  | sent agent e hagent hopen hplain hid hbox hroom hinbox =>
    have hsender : ∀ k, (s.inbox e.to_).kids e.from_ = some k → k.phase.isOpen = true := by
      intro k hk
      obtain ⟨agent', hagent', hview⟩ := hlife.known hk
      obtain rfl : agent = agent' := Option.some.inj (hagent.symm.trans hagent')
      exact hview hopen
    obtain ⟨hsending, hpushed, -⟩ := Inbox.accept_step hinbox hbox hroom hsender
    exact h.sent hagent hplain hid hsending hpushed
  | recorded me agent i sends hagent hstart =>
    have hold := sends_of_agent hagent
    rw [← hold] at hstart
    obtain ⟨hchained, hfinished, hunfinished, hitems⟩ :=
      Chain.start_chained (h.chained me) hstart
    refine h.calm (fun c => ?_) (fun c => ?_) (fun c => ?_) (fun c => ?_) rfl
      fun r => ⟨rfl, rfl⟩
    · rw [sends_setAgent]
      split
      · exact hchained
      · exact h.chained c
    · rw [sends_setAgent]
      split
      · next hc => rw [hc, hitems]
      · rfl
    · rw [sends_setAgent]
      split
      · next hc => rw [hc, hfinished]
      · rfl
    · rw [sends_setAgent]
      split
      · next hc => rw [hc, hunfinished]
      · rfl
  | pushed me agent i e sends hagent hfinish hinbox =>
    obtain ⟨hpushed, hsending, -⟩ :=
      Inbox.deliver_step (Inbox.kinds_of_reachable (hreach e.to_)) hinbox
    exact h.push hagent hfinish hpushed hsending
  | closed me agent hagent hopen hacted =>
    refine h.acted hreach hacted (fun l hl => ⟨?_, ?_⟩) (fun d => ?_) rfl rfl
    · rintro e rfl
      cases hl
    · rintro e rfl
      cases hl
    · rw [sends_setAgent]
      unfold State.sends
      split
      · next hd => rw [hd, hagent]
      · rw [hacted.agents]
  | published o agent hagent hclosed hjoined hacted =>
    refine h.acted hreach hacted (fun l hl => ⟨?_, ?_⟩) (fun d => ?_) rfl rfl
    · rintro e rfl
      cases hl
    · rintro e rfl
      cases hl
    · unfold State.sends
      rw [hacted.agents]

theorem sends_init (c : NodeId) : State.init.sends c = [] := by
  unfold State.sends State.init
  by_cases hc : c = 0
  · subst hc
    rfl
  · simp [hc]

theorem messages_init : Messages State.init := by
  refine ⟨fun c => ?_, fun c => ?_, fun c => ?_, fun c r => ?_, fun c r => ?_⟩
  · rw [sends_init]
    trivial
  · rw [sends_init]
    intro e he
    cases he
  · rw [sends_init]
    exact List.Pairwise.nil
  · rw [sends_init]
    rfl
  · rw [sends_init]
    exact List.Perm.refl _

theorem messages_of_reachable {cfg : Config} {s : State} (h : (agents cfg).Reachable s) :
    Messages s :=
  LTS.System.invariant_with
    (J := fun s => (∀ a, (Inbox.inbox (cfg.inbox a)).Reachable (s.inbox a)) ∧ Life s)
    (fun _ hs => ⟨inbox_reachable hs, life_of_reachable hs⟩) messages_init
    (fun _ _ _ hJ _ hs _ hstep => messages_step hJ.1 hJ.2 hs (fires_of_step hstep)) s h

/-! ### Order at the recipient -/

/-- The accepted sends of `c` to `r`, in the order of acceptance. -/
def State.accepted (s : State) (c r : NodeId) : List Envelope :=
  (Chain.items (s.sends c)).filter fun e => e.to_ == r

/-- What `r` gets from `c`. -/
structure SenderOrder (cfg : Config) (s : State) (c r : NodeId) : Prop where
  /-- The order of acceptance is the order of the ids. -/
  increasing : (s.accepted c r).Pairwise fun a b => a.id < b.id
  /-- What was handed over, followed by what is queued, is a subsequence of
      what was accepted, in that order. -/
  handed : ((ofSender c (s.inbox r).delivered ++
    ofSender c (s.inbox r).box.queue).filter Envelope.plain).Sublist (s.accepted c r)
  /-- No delivery hands over a message while an earlier one stays. -/
  takes : ∀ (pick : Inbox.Pick) (box : Mailbox.State) (b : Mailbox.Batch),
    Mailbox.take (s.inbox r).box cfg.limits.deliveryChars pick.test
      (Envelope.size cfg.names) = some (box, b) →
    ofSender c b.taken ++ ofSender c box.queue = ofSender c (s.inbox r).box.queue
  /-- The terminal entry is queued after every message that `c` sent to `r`. -/
  queued : ∀ e ∈ (s.inbox r).pushed, e.plain = false → e.from_ = c →
    ofSender c (s.inbox r).pushed = s.accepted c r ++ [e]
  /-- It is handed over after all of them. -/
  last : ∀ e ∈ (s.inbox r).delivered, e.plain = false → e.from_ = c →
    ofSender c (s.inbox r).delivered = s.accepted c r ++ [e]

theorem plain_ofSender (c : NodeId) (xs : List Envelope) :
    (ofSender c xs).filter Envelope.plain = ofSender c (xs.filter Envelope.plain) := by
  unfold Inbox.ofSender
  rw [List.filter_filter, List.filter_filter]
  congr 1
  funext e
  exact Bool.and_comm _ _

/-- What a mailbox was given of a sender is the first part of what the sender
    was accepted. -/
theorem pushed_isPrefix {s : State} (h : Messages s) (c r : NodeId) :
    (ofSender c (s.inbox r).pushed).filter Envelope.plain <+: s.accepted c r := by
  rw [plain_ofSender, h.pushed c r]
  refine ⟨(Chain.unfinished (s.sends c)).filter fun e => e.to_ == r, ?_⟩
  rw [← List.filter_append, Chain.finished_append_unfinished (h.chained c)]
  rfl

/-- An agent with a terminal entry has pushed all its sends before it. -/
theorem pushed_of_terminal {cfg : Config} {s : State} (hs : (agents cfg).Reachable s)
    {c r : NodeId} {e : Envelope} (he : e ∈ (s.inbox r).pushed) (hterm : e.plain = false)
    (hfrom : e.from_ = c) : ofSender c (s.inbox r).pushed = s.accepted c r ++ [e] := by
  have hi := inbox_reachable hs r
  have hm := messages_of_reachable hs
  -- Only an agent that has published is reported.
  have hposted : c ∈ (s.inbox r).notes.posted :=
    Inbox.mem_terminalSenders.mpr ⟨e, he, hterm, hfrom⟩
  obtain ⟨o, ho⟩ :=
    (Inbox.joined_of_reachable hi).published c (List.mem_append_left _ hposted)
  obtain ⟨agent, hagent, -, hdone⟩ := (life_of_reachable hs).published ho
  rw [← sends_of_agent hagent] at hdone
  have hall := Chain.finished_append_unfinished (hm.chained c)
  rw [hdone, List.append_nil] at hall
  have hsplit := Inbox.eq_append_of_terminal ((Inbox.ordered_of_reachable hi).last c)
    (Inbox.mem_ofSender.mpr ⟨he, hfrom⟩) hterm
  rw [plain_ofSender, hm.pushed c r, hall] at hsplit
  exact hsplit

/-- Every recipient gets the messages of every sender in the order in which
    the sends were accepted, and the sender's terminal entry after them. -/
theorem sender_order (cfg : Config) {s : State} (hs : (agents cfg).Reachable s)
    (c r : NodeId) : SenderOrder cfg s c r := by
  have hordered := Inbox.ordered_of_reachable (inbox_reachable hs r)
  have hm := messages_of_reachable hs
  refine ⟨(hm.increasing c).filter _, ?_, ?_, ?_, ?_⟩
  · exact ((hordered.sublist c).filter _).trans (pushed_isPrefix hm c r).sublist
  · intro pick box b htake
    obtain ⟨-, rfl, rfl⟩ := Mailbox.take_eq_some.mp htake
    exact Inbox.ofSender_take pick.senderWise c
  · intro e he hterm hfrom
    exact pushed_of_terminal hs he hterm hfrom
  · intro e he hterm hfrom
    -- Once the entry is handed over, everything of the sender is.
    have hcomplete := hordered.complete e he hterm
    have hpushed : e ∈ (s.inbox r).pushed := by
      have hmem := (hordered.sublist e.from_).subset
        (List.mem_append_left _ (Inbox.mem_ofSender.mpr ⟨he, rfl⟩))
      exact (Inbox.mem_ofSender.mp hmem).1
    rw [hfrom] at hcomplete
    rw [hcomplete]
    exact pushed_of_terminal hs hpushed hterm hfrom

/-- The default limits. -/
def defaultConfig : Config := ⟨.default, fun _ => "worker"⟩

/-- A child sends two messages to the root and ends. -/
def childLabels : List Label :=
  [.spawn 0 1 .node, .own 0 (.expect 1), .send 1 0 0 "first", .send 1 0 1 "second",
    .record 1 0, .push 1 0, .record 1 1, .push 1 1, .close 1,
    .publish ⟨1, .completed, "done"⟩, .notify 1 2, .own 0 (.take .all)]

theorem sender_order_child : ∃ s,
    (agents defaultConfig).run (agents defaultConfig).init childLabels = some s ∧
      (s.inbox 0).delivered.map Envelope.id = [0, 1, 2] ∧
      SenderOrder defaultConfig s 1 0 := by
  have hrun : ((agents defaultConfig).run (agents defaultConfig).init childLabels).map
      (fun s => (s.inbox 0).delivered.map Envelope.id) = some [0, 1, 2] := by decide +kernel
  obtain ⟨s, hs, hids⟩ := Option.map_eq_some_iff.mp hrun
  exact ⟨s, hs, hids, sender_order defaultConfig (LTS.System.reachable_of_run hs) 1 0⟩

end Kyora.Agents
