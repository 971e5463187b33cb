import Kyora.Agents.Basic

/-! # What one step of the agents does

  Every step leaves each inbox as it was, or makes it take some steps of its
  own. `Fires` says which ones, and what becomes of the directory.
-/

namespace Kyora.Agents

/-! ### Steps of one inbox -/

/-- An inbox that went through labels with the property `ok`. -/
def Ran (cfg : Inbox.Config) (ok : Inbox.Label → Prop) (i i' : Inbox.State) : Prop :=
  ∃ ls, (∀ l ∈ ls, ok l) ∧ (Inbox.inbox cfg).run i ls = some i'

theorem Ran.refl {cfg : Inbox.Config} {ok : Inbox.Label → Prop} (i : Inbox.State) :
    Ran cfg ok i i :=
  ⟨[], by simp, rfl⟩

theorem Ran.single {cfg : Inbox.Config} {ok : Inbox.Label → Prop} {i i' : Inbox.State}
    {l : Inbox.Label} (hl : ok l) (h : Inbox.step cfg i l = some i') : Ran cfg ok i i' := by
  refine ⟨[l], by simpa using hl, ?_⟩
  exact ((Inbox.inbox cfg).run_cons).mpr ⟨i', h, rfl⟩

theorem Ran.trans {cfg : Inbox.Config} {ok : Inbox.Label → Prop} {i i' i'' : Inbox.State}
    (h : Ran cfg ok i i') (h' : Ran cfg ok i' i'') : Ran cfg ok i i'' := by
  obtain ⟨ls, hls, hrun⟩ := h
  obtain ⟨ls', hls', hrun'⟩ := h'
  refine ⟨ls ++ ls', fun l hl => ?_, ((Inbox.inbox cfg).run_append).mpr ⟨i', hrun, hrun'⟩⟩
  rcases List.mem_append.mp hl with hl | hl
  · exact hls l hl
  · exact hls' l hl

theorem Ran.mono {cfg : Inbox.Config} {ok ok' : Inbox.Label → Prop} {i i' : Inbox.State}
    (h : Ran cfg ok i i') (hok : ∀ l, ok l → ok' l) : Ran cfg ok' i i' := by
  obtain ⟨ls, hls, hrun⟩ := h
  exact ⟨ls, fun l hl => hok l (hls l hl), hrun⟩

theorem Ran.reachable {cfg : Inbox.Config} {ok : Inbox.Label → Prop} {i i' : Inbox.State}
    (h : Ran cfg ok i i') (hi : (Inbox.inbox cfg).Reachable i) :
    (Inbox.inbox cfg).Reachable i' := by
  obtain ⟨ls, -, hrun⟩ := h
  exact hi.run hrun

/-- What every allowed step of a reachable inbox keeps. -/
theorem Ran.keeps {cfg : Inbox.Config} {ok : Inbox.Label → Prop} {P : Inbox.State → Prop}
    (hstep : ∀ i l i', (Inbox.inbox cfg).Reachable i → ok l → P i →
      Inbox.step cfg i l = some i' → P i')
    {i i' : Inbox.State} (h : Ran cfg ok i i') (hi : (Inbox.inbox cfg).Reachable i)
    (hP : P i) : P i' := by
  obtain ⟨ls, hls, hrun⟩ := h
  induction ls generalizing i with
  | nil =>
    obtain rfl := Option.some.inj hrun
    exact hP
  | cons l ls ih =>
    obtain ⟨j, hj, hrest⟩ := ((Inbox.inbox cfg).run_cons).mp hrun
    apply ih (hi.next hj) (hstep i l j hi (hls l List.mem_cons_self) hP hj) _ hrest
    intro l' hl'
    exact hls l' (List.mem_cons_of_mem l hl')

/-! ### Steps of several inboxes -/

theorem act_eq_some {cfg : Config} {s t : State} {me : NodeId} {l : Inbox.Label} :
    s.act cfg me l = some t ↔ ∃ i, Inbox.step (cfg.inbox me) (s.inbox me) l = some i ∧
      t = { s with inbox := Function.update s.inbox me i } := by
  unfold State.act
  rw [Option.map_eq_some_iff]
  constructor
  · rintro ⟨i, hi, rfl⟩
    exact ⟨i, hi, rfl⟩
  · rintro ⟨i, hi, rfl⟩
    exact ⟨i, hi, rfl⟩

/-- Only inboxes change, and only by steps of their own. -/
structure Acted (cfg : Config) (ok : Inbox.Label → Prop) (s t : State) : Prop where
  agents : t.agents = s.agents
  nextMessage : t.nextMessage = s.nextMessage
  ran : ∀ a, Ran (cfg.inbox a) ok (s.inbox a) (t.inbox a)

theorem ran_update {cfg : Config} {ok : Inbox.Label → Prop} {s : State} {me : NodeId}
    {l : Inbox.Label} {i : Inbox.State} (hl : ok l)
    (h : Inbox.step (cfg.inbox me) (s.inbox me) l = some i) (a : NodeId) :
    Ran (cfg.inbox a) ok (s.inbox a) (Function.update s.inbox me i a) := by
  by_cases ha : a = me
  · subst ha
    rw [Function.update_self]
    exact .single hl h
  · rw [Function.update_of_ne ha]
    exact .refl _

theorem acted_of_act {cfg : Config} {ok : Inbox.Label → Prop} {s t : State} {me : NodeId}
    {l : Inbox.Label} (hl : ok l) (h : s.act cfg me l = some t) : Acted cfg ok s t := by
  obtain ⟨i, hi, rfl⟩ := act_eq_some.mp h
  exact ⟨rfl, rfl, ran_update hl hi⟩

theorem acted_of_actAll {cfg : Config} {ok : Inbox.Label → Prop} {nodes : List NodeId}
    {s t : State} {l : Inbox.Label} (hl : ok l) (h : s.actAll cfg nodes l = some t) :
    Acted cfg ok s t := by
  induction nodes generalizing s with
  | nil =>
    obtain rfl := Option.some.inj h
    exact ⟨rfl, rfl, fun a => .refl _⟩
  | cons me nodes ih =>
    obtain ⟨u, hu, hrest⟩ := Option.bind_eq_some_iff.mp h
    have hfirst := acted_of_act hl hu
    have hothers := ih hrest
    exact ⟨hothers.agents.trans hfirst.agents, hothers.nextMessage.trans hfirst.nextMessage,
      fun a => (hfirst.ran a).trans (hothers.ran a)⟩

/-! ### Steps of the agents -/

/-- The steps of a mailbox that move no plain message into it and show no new
    agent and no new phase of a descendant that is still running. -/
def isQuiet : Inbox.Label → Bool
  | .accept _ | .deliver _ | .register _ _ | .join _ | .publish _ => false
  | _ => true

theorem isQuiet_of_isOwn {l : Inbox.Label} (h : isOwn l = true) : isQuiet l = true := by
  cases l with
  | accept e => cases h
  | deliver e => cases h
  | register c kin => cases h
  | join c => cases h
  | publish o => cases h
  | _ => rfl

/-- The outcomes of the labels. -/
inductive Fires (cfg : Config) (s : State) : State → Prop where
  | refused : Fires cfg s s
  | quiet {t : State} (h : Acted cfg (fun l => isQuiet l = true) s t) : Fires cfg s t
  | spawned (p c : NodeId) {t : State} (hnew : s.agents c = none) (hlt : p < c)
      (hparent : (s.agents p).isSome)
      (h : Acted cfg (fun l => ∃ kin, l = .register c kin) s t) :
      Fires cfg s (t.setAgent c ⟨some p, false, []⟩)
  | sent (agent : Agent) (e : Envelope) {i : Inbox.State}
      (hagent : s.agents e.from_ = some agent) (hopen : agent.closed = false)
      (hplain : e.plain = true) (hid : s.nextMessage ≤ e.id)
      (hbox : (s.inbox e.to_).box.closed = false)
      (hroom : (s.inbox e.to_).box.plain + (s.inbox e.to_).box.reserved <
        cfg.limits.mailboxCapacity)
      (hinbox : Inbox.step (cfg.inbox e.to_) (s.inbox e.to_) (.accept e) = some i) :
      Fires cfg s ({ s with
        inbox := Function.update s.inbox e.to_ i
        nextMessage := e.id + 1 }.setAgent e.from_
          { agent with sends := Chain.submit agent.sends e })
  | recorded (me : NodeId) (agent : Agent) (i : Nat) (sends : List (Chain.Task Envelope))
      (hagent : s.agents me = some agent) (hstart : Chain.start agent.sends i = some sends) :
      Fires cfg s (s.setAgent me { agent with sends })
  | pushed (me : NodeId) (agent : Agent) (i : Nat) (e : Envelope)
      (sends : List (Chain.Task Envelope)) {box : Inbox.State}
      (hagent : s.agents me = some agent)
      (hfinish : Chain.finish agent.sends i = some (e, sends))
      (hinbox : Inbox.step (cfg.inbox e.to_) (s.inbox e.to_) (.deliver e) = some box) :
      Fires cfg s ({ s with inbox := Function.update s.inbox e.to_ box }.setAgent me
        { agent with sends })
  | closed (me : NodeId) (agent : Agent) {t : State} (hagent : s.agents me = some agent)
      (hopen : agent.closed = false) (h : Acted cfg (fun l => l = .join me) s t) :
      Fires cfg s (t.setAgent me { agent with closed := true })
  | published (o : Inbox.Outcome) (agent : Agent) {t : State}
      (hagent : s.agents o.node = some agent) (hclosed : agent.closed = true)
      (hjoined : Chain.unfinished agent.sends = [])
      (h : Acted cfg (fun l => l = .publish o) s t) : Fires cfg s t

/-- An envelope is accepted by the rules of the mailbox, or refused. -/
theorem fires_of_accept {cfg : Config} {s t : State} {agent : Agent} {e : Envelope}
    (hagent : s.agents e.from_ = some agent) (hopen : agent.closed = false)
    (hplain : e.plain = true) (h : s.accept cfg agent e = some t) : Fires cfg s t := by
  unfold State.accept at h
  split at h
  · obtain rfl := Option.some.inj h
    exact .refused
  · next box hres =>
    obtain ⟨hbox, hroom, -⟩ := Mailbox.reserve_ok.mp hres
    split at h
    · next hid =>
      obtain ⟨u, hu, rfl⟩ := Option.map_eq_some_iff.mp h
      obtain ⟨i, hi, rfl⟩ := act_eq_some.mp hu
      exact .sent agent e hagent hopen hplain hid hbox hroom hi
    · cases h

theorem fires_of_step {cfg : Config} {s t : State} {l : Label} (h : step cfg s l = some t) :
    Fires cfg s t := by
  cases l with
  | spawn p c kin =>
    simp only [step] at h
    split at h
    · next agent hp =>
      split at h
      · next hok =>
        obtain ⟨above, -, h⟩ := Option.bind_eq_some_iff.mp h
        obtain ⟨u, hu, h⟩ := Option.bind_eq_some_iff.mp h
        obtain ⟨v, hv, rfl⟩ := Option.map_eq_some_iff.mp h
        have hfirst : Acted cfg (fun l => ∃ kin, l = .register c kin) s u :=
          acted_of_act ⟨kin, rfl⟩ hu
        have hothers : Acted cfg (fun l => ∃ kin, l = .register c kin) u v :=
          acted_of_actAll ⟨.deeper, rfl⟩ hv
        refine .spawned p c hok.2.1 hok.2.2.1 (by rw [hp]; rfl) ⟨?_, ?_, fun a => ?_⟩
        · exact hothers.agents.trans hfirst.agents
        · exact hothers.nextMessage.trans hfirst.nextMessage
        · exact (hfirst.ran a).trans (hothers.ran a)
      · cases h
    · cases h
  | send me to_ id body =>
    simp only [step] at h
    split at h
    · next agent hagent =>
      split at h
      · obtain rfl := Option.some.inj h
        exact .refused
      · next hok =>
        rw [not_or, Bool.not_eq_true] at hok
        split at h
        · obtain rfl := Option.some.inj h
          exact .refused
        · exact fires_of_accept hagent hok.2 rfl h
    · cases h
  | record me i =>
    obtain ⟨agent, hagent, h⟩ := Option.bind_eq_some_iff.mp h
    obtain ⟨sends, hstart, rfl⟩ := Option.map_eq_some_iff.mp h
    exact .recorded me agent i sends hagent hstart
  | push me i =>
    obtain ⟨agent, hagent, h⟩ := Option.bind_eq_some_iff.mp h
    obtain ⟨⟨e, sends⟩, hfinish, h⟩ := Option.bind_eq_some_iff.mp h
    obtain ⟨u, hu, rfl⟩ := Option.map_eq_some_iff.mp h
    obtain ⟨box, hbox, rfl⟩ := act_eq_some.mp hu
    exact .pushed me agent i e sends hagent hfinish hbox
  | close me =>
    simp only [step] at h
    split at h
    · next agent hagent =>
      split at h
      · next hopen =>
        obtain ⟨above, -, h⟩ := Option.bind_eq_some_iff.mp h
        obtain ⟨u, hu, rfl⟩ := Option.map_eq_some_iff.mp h
        exact .closed me agent hagent hopen (acted_of_actAll rfl hu)
      · cases h
    · cases h
  | publish o =>
    simp only [step] at h
    split at h
    · next agent hagent =>
      split at h
      · next hok =>
        obtain ⟨above, -, h⟩ := Option.bind_eq_some_iff.mp h
        exact .published o agent hagent hok.1 hok.2 (acted_of_actAll rfl h)
      · cases h
    · cases h
  | notify c id =>
    obtain ⟨agent, -, h⟩ := Option.bind_eq_some_iff.mp h
    obtain ⟨p, -, h⟩ := Option.bind_eq_some_iff.mp h
    exact .quiet (acted_of_act rfl h)
  | own me l =>
    simp only [step] at h
    split at h
    · next hok => exact .quiet (acted_of_act (isQuiet_of_isOwn hok.2) h)
    · cases h

/-- Every inbox of a step goes through steps of its own. -/
theorem Fires.ran {cfg : Config} {s t : State} (h : Fires cfg s t) (a : NodeId) :
    Ran (cfg.inbox a) (fun _ => True) (s.inbox a) (t.inbox a) := by
  cases h with
  | refused => exact .refl _
  | quiet h => exact (h.ran a).mono fun _ _ => trivial
  | spawned p c hnew hlt hparent h => exact (h.ran a).mono fun _ _ => trivial
  | sent agent e hagent hopen hplain hid hbox hroom hinbox => exact ran_update trivial hinbox a
  | recorded me agent i sends hagent hstart => exact .refl _
  | pushed me agent i e sends hagent hfinish hinbox => exact ran_update trivial hinbox a
  | closed me agent hagent hopen h => exact (h.ran a).mono fun _ _ => trivial
  | published o agent hagent hclosed hjoined h => exact (h.ran a).mono fun _ _ => trivial

/-- Each inbox of a reachable state is a reachable inbox. -/
theorem inbox_reachable {cfg : Config} {s : State} (h : (agents cfg).Reachable s)
    (a : NodeId) : (Inbox.inbox (cfg.inbox a)).Reachable (s.inbox a) :=
  LTS.System.invariant (P := fun s => (Inbox.inbox (cfg.inbox a)).Reachable (s.inbox a))
    .init (fun _ _ _ hs _ hstep => ((fires_of_step hstep).ran a).reachable hs) s h

end Kyora.Agents
