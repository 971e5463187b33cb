import Kyora.Inbox.Basic

/-! # What one step of an inbox does

  `Fires` lists the outcomes of every label with the state they lead to, and
  `fires_of_step` says that the list is complete. Invariants of the inbox are
  proved by cases on it.
-/

namespace Kyora.Inbox

/-- The outcomes of the labels. A push is left as `post`; its four outcomes
    are `post_plain` and `post_terminal`. -/
inductive Fires (cfg : Config) (s : State) : Label → State → Prop where
  | refused (e : Envelope) : Fires cfg s (.accept e) s
  | accepted (e : Envelope) (hplain : e.plain = true)
      (hsender : ∀ k, s.kids e.from_ = some k → k.phase.isOpen = true)
      (hopen : s.box.closed = false)
      (hroom : s.box.plain + s.box.reserved < cfg.limits.mailboxCapacity) :
      Fires cfg s (.accept e) { s with
        box := { s.box with reserved := s.box.reserved + 1 }, sending := s.sending ++ [e] }
  | deliver (e : Envelope) {t : State} (hmem : e ∈ s.sending)
      (hpost : { s with sending := s.sending.erase e }.post e = some t) :
      Fires cfg s (.deliver e) t
  | register (c : NodeId) (kin : Kin) (hnew : s.kids c = none) :
      Fires cfg s (.register c kin)
        (s.setKid c ⟨kin, if kin = .node then .registered else .running⟩)
  | expect (c : NodeId) (hkid : s.kids c = some ⟨.node, .registered⟩) :
      Fires cfg s (.expect c)
        ({ s with box := Mailbox.expect s.box c }.setKid c ⟨.node, .running⟩).willWake
  | join (c : NodeId) (kin : Kin) (hkid : s.kids c = some ⟨kin, .running⟩) :
      Fires cfg s (.join c) (s.setKid c ⟨kin, .joining⟩)
  | publish (o : Outcome) (kin : Kin) (hkid : s.kids o.node = some ⟨kin, .joining⟩)
      (hjoined : ∀ e ∈ s.sending, e.from_ ≠ o.node) (hkin : kin ≠ .cell) :
      Fires cfg s (.publish o) (s.setKid o.node ⟨kin, .published o⟩)
  | publishCell (o : Outcome) (hkid : s.kids o.node = some ⟨.cell, .joining⟩)
      (hjoined : ∀ e ∈ s.sending, e.from_ ≠ o.node) :
      Fires cfg s (.publish o) (s.setKid o.node ⟨.cell, .published o⟩).willWake
  | notify (c : NodeId) (id : Nat) (o : Outcome) {t : State}
      (hkid : s.kids c = some ⟨.node, .published o⟩)
      (hpost : (s.setKid c ⟨.node, .ended o⟩).post (notice cfg id o) = some t) :
      Fires cfg s (.notify c id) t
  | staged (o : Outcome) (id : Nat) (hout : s.outcome o.node = some o)
      (hopen : s.box.closed = false) (hawait : o.node ∉ s.box.awaiting)
      (hnew : o.node ∉ s.box.concluded) :
      Fires cfg s (.stage o id) { s with
        box := { s.box with
          concluded := insert o.node s.box.concluded
          awaiting := insert o.node s.box.awaiting }
        staged := s.staged ++ [notice cfg id o] }
  | unstaged (o : Outcome) (id : Nat) (hout : s.outcome o.node = some o)
      (hno : (Mailbox.stage s.box o.node).2 = false) : Fires cfg s (.stage o id) s
  | conclude (e : Envelope) {t : State} (hmem : e ∈ s.staged)
      (hpost : { s with staged := s.staged.erase e }.post e = some t) :
      Fires cfg s (.conclude e) t
  | take (pick : Pick) {box : Mailbox.State} {b : Mailbox.Batch}
      (htake : Mailbox.take s.box cfg.limits.deliveryChars pick.test
        (Envelope.size cfg.names) = some (box, b)) :
      Fires cfg s (.take pick) (s.handOver cfg box b)
  | idleDeliver (shut : Bool) {box : Mailbox.State} {b : Mailbox.Batch}
      (hqueue : s.box.queue ≠ [])
      (htake : Mailbox.take s.box cfg.limits.deliveryChars (fun _ => true)
        (Envelope.size cfg.names) = some (box, b)) :
      Fires cfg s (.idle shut) (s.handOver cfg box b)
  | idleDone (shut : Bool) (hqueue : s.box.queue = []) (hawait : s.box.awaiting = ∅)
      (hres : s.box.reserved = 0) :
      Fires cfg s (.idle shut) { s with box := { s.box with closed := s.box.closed || shut } }
  | idleWait (shut : Bool) (hqueue : s.box.queue = [])
      (hmore : ¬ (s.box.awaiting = ∅ ∧ s.box.reserved = 0)) : Fires cfg s (.idle shut) s
  | close : Fires cfg s .close { s with
        box := (Mailbox.close s.box).1
        undelivered := s.undelivered ++ s.box.queue }.willWake
  | charged (o : Outcome)
      (hfit : s.box.turn = 0 ∨
        s.box.turn + (renderOutcome cfg o).length ≤ cfg.limits.deliveryChars) :
      Fires cfg s (.charge o) { s with
        box := { s.box with turn := s.box.turn + (renderOutcome cfg o).length }
        items := s.items ++ [(renderOutcome cfg o).length] }
  | uncharged (o : Outcome) : Fires cfg s (.charge o) s
  | saw (c : NodeId) : Fires cfg s (.saw c) { s with box := Mailbox.saw s.box c }
  | newTurn : Fires cfg s .newTurn { s with box := Mailbox.newTurn s.box, items := [] }
  | wake (op : Nat) (hmem : op ∈ s.wakes) :
      Fires cfg s (.wake op)
        { s with wakes := s.wakes.erase op, version := s.version + 1 }

/-- The list of outcomes is complete. -/
theorem fires_of_step {cfg : Config} {s t : State} {l : Label}
    (h : step cfg s l = some t) : Fires cfg s l t := by
  cases l with
  | accept e =>
    simp only [step] at h
    split at h
    · next he =>
      split at h
      · next hsender =>
        split at h
        · next box hres =>
          obtain ⟨hopen, hroom, rfl⟩ := Mailbox.reserve_ok.mp hres
          obtain rfl := Option.some.inj h
          refine .accepted e he (fun k hk => ?_) hopen hroom
          rw [hk] at hsender
          exact hsender
        · obtain rfl := Option.some.inj h
          exact .refused e
      · obtain rfl := Option.some.inj h
        exact .refused e
    · cases h
  | deliver e =>
    simp only [step] at h
    split at h
    · next hmem => exact .deliver e hmem h
    · cases h
  | register c kin =>
    simp only [step] at h
    split at h
    · next hnew =>
      obtain rfl := Option.some.inj h
      exact .register c kin hnew
    · cases h
  | expect c =>
    simp only [step] at h
    split at h
    · next hkid =>
      obtain rfl := Option.some.inj h
      exact .expect c hkid
    · cases h
  | join c =>
    simp only [step] at h
    split at h
    · next kin hkid =>
      obtain rfl := Option.some.inj h
      exact .join c kin hkid
    · cases h
  | publish o =>
    simp only [step] at h
    split at h
    · next kin hkid =>
      split at h
      · next hjoined =>
        obtain rfl := Option.some.inj h
        split
        · next hkin =>
          subst hkin
          exact .publishCell o hkid hjoined
        · next hkin => exact .publish o kin hkid hjoined hkin
      · cases h
    · cases h
  | notify c id =>
    simp only [step] at h
    split at h
    · next o hkid => exact .notify c id o hkid h
    · cases h
  | stage o id =>
    simp only [step] at h
    split at h
    · next hout =>
      split at h
      · next box hstage =>
        obtain ⟨hopen, hawait, hnew, rfl⟩ := Mailbox.stage_true.mp hstage
        obtain rfl := Option.some.inj h
        exact .staged o id hout hopen hawait hnew
      · next box hstage =>
        have hno : (Mailbox.stage s.box o.node).2 = false := by rw [hstage]
        obtain rfl := Mailbox.stage_false hstage
        obtain rfl := Option.some.inj h
        exact .unstaged o id hout hno
    · cases h
  | conclude e =>
    simp only [step] at h
    split at h
    · next hmem => exact .conclude e hmem h
    · cases h
  | take pick =>
    obtain ⟨⟨box, b⟩, htake, rfl⟩ := Option.map_eq_some_iff.mp h
    exact .take pick htake
  | idle shut =>
    obtain ⟨⟨box, r⟩, hidle, rfl⟩ := Option.map_eq_some_iff.mp h
    rcases Mailbox.idle_cases hidle with
      ⟨hqueue, b, rfl, htake⟩ | ⟨hqueue, hawait, hres, rfl, rfl⟩ | ⟨hqueue, hmore, rfl, rfl⟩
    · exact .idleDeliver shut hqueue htake
    · exact .idleDone shut hqueue hawait hres
    · exact .idleWait shut hqueue hmore
  | close =>
    obtain rfl := Option.some.inj h
    exact .close
  | charge o =>
    simp only [step] at h
    split at h
    · next box hcharge =>
      obtain ⟨hfit, rfl⟩ := Mailbox.charge_true.mp hcharge
      obtain rfl := Option.some.inj h
      exact .charged o hfit
    · next box hcharge =>
      obtain rfl := Mailbox.charge_false hcharge
      obtain rfl := Option.some.inj h
      exact .uncharged o
  | saw c =>
    obtain rfl := Option.some.inj h
    exact .saw c
  | newTurn =>
    obtain rfl := Option.some.inj h
    exact .newTurn
  | wake op =>
    simp only [step] at h
    split at h
    · next hmem =>
      obtain rfl := Option.some.inj h
      exact .wake op hmem
    · cases h

/-! ### Pushes -/

theorem post_eq_some {s t : State} {e : Envelope} :
    s.post e = some t ↔ ∃ box r, Mailbox.push s.box e = some (box, r) ∧
      t = { s with
        box
        pushed := s.pushed ++ [e]
        undelivered := match r with
          | .ok () => s.undelivered
          | .error e => s.undelivered ++ [e] }.willWake := by
  unfold State.post
  rw [Option.map_eq_some_iff]
  constructor
  · rintro ⟨⟨box, r⟩, hpush, rfl⟩
    exact ⟨box, r, hpush, rfl⟩
  · rintro ⟨box, r, hpush, rfl⟩
    exact ⟨(box, r), hpush, rfl⟩

theorem post_terminal {s : State} {e : Envelope} (he : e.plain = false) :
    s.post e = some { s with
      box := { s.box with
        awaiting := s.box.awaiting.erase e.from_
        concluded := insert e.from_ s.box.concluded
        queue := if s.box.closed then s.box.queue else s.box.queue ++ [e] }
      pushed := s.pushed ++ [e]
      undelivered := if s.box.closed then s.undelivered ++ [e] else s.undelivered }.willWake := by
  rw [post_eq_some]
  refine ⟨_, _, Mailbox.push_terminal he, ?_⟩
  by_cases hclosed : s.box.closed = true
  · simp only [if_pos hclosed]
  · simp only [if_neg hclosed]

theorem post_plain {s t : State} {e : Envelope} (he : e.plain = true)
    (h : s.post e = some t) :
    1 ≤ s.box.reserved ∧
      ((s.box.closed = false ∧ t = { s with
          box := { s.box with
            reserved := s.box.reserved - 1
            plain := s.box.plain + 1
            queue := s.box.queue ++ [e] }
          pushed := s.pushed ++ [e] }.willWake) ∨
        (s.box.closed = true ∧ t = { s with
          box := { s.box with reserved := s.box.reserved - 1 }
          pushed := s.pushed ++ [e]
          undelivered := s.undelivered ++ [e] }.willWake)) := by
  obtain ⟨box, r, hpush, rfl⟩ := post_eq_some.mp h
  obtain ⟨hres, ⟨hopen, rfl, rfl⟩ | ⟨hclosed, rfl, rfl⟩⟩ := Mailbox.push_plain he hpush
  · exact ⟨hres, Or.inl ⟨hopen, rfl⟩⟩
  · exact ⟨hres, Or.inr ⟨hclosed, rfl⟩⟩


/-! ### Kinds -/

/-- What is accepted is a plain message, what is staged a notice, and an agent
    publishes its own outcome. -/
structure Kinds (s : State) : Prop where
  sending : ∀ e ∈ s.sending, e.plain = true
  staged : ∀ e ∈ s.staged, e.plain = false
  outcome : ∀ {c : NodeId} {o : Outcome}, s.outcome c = some o → o.node = c

theorem State.outcome_eq_some {s : State} {c : NodeId} {o : Outcome} :
    s.outcome c = some o ↔ ∃ k, s.kids c = some k ∧ k.phase.outcome = some o :=
  Option.bind_eq_some_iff

/-- A push changes nothing in flight. -/
theorem post_flight {s t : State} {e : Envelope} (h : s.post e = some t) :
    t.sending = s.sending ∧ t.staged = s.staged ∧ t.kids = s.kids ∧
      t.batches = s.batches ∧ t.items = s.items ∧ t.version = s.version ∧
      t.pushed = s.pushed ++ [e] ∧ t.wakes = s.wakes ++ [s.nextOp] ∧
      t.nextOp = s.nextOp + 1 := by
  obtain ⟨box, r, -, rfl⟩ := post_eq_some.mp h
  exact ⟨rfl, rfl, rfl, rfl, rfl, rfl, rfl, rfl, rfl⟩

/-- Outcomes are read off the phases. -/
theorem outcome_of_kids {s t : State} (h : t.kids = s.kids) : t.outcome = s.outcome := by
  funext c
  unfold State.outcome
  rw [h]

theorem outcome_setKid (s : State) (c d : NodeId) (k : Kid) :
    (s.setKid c k).outcome d = if d = c then k.phase.outcome else s.outcome d := by
  unfold State.outcome State.setKid
  by_cases hd : d = c
  · subst hd
    simp
  · simp [hd]

/-- The kinds depend on what is in flight and on the phases only. -/
theorem Kinds.of_eq {s t : State} (hk : Kinds s) (hsending : t.sending = s.sending)
    (hstaged : t.staged = s.staged) (hkids : t.kids = s.kids) : Kinds t := by
  refine ⟨by rw [hsending]; exact hk.sending, by rw [hstaged]; exact hk.staged, fun ho => ?_⟩
  unfold State.outcome at ho
  rw [hkids] at ho
  exact hk.outcome ho

/-- A new phase whose outcome, if any, is the agent's own. -/
theorem Kinds.setKid {s : State} (hk : Kinds s) {c : NodeId} {k : Kid}
    (h : ∀ {o}, k.phase.outcome = some o → o.node = c) : Kinds (s.setKid c k) := by
  refine ⟨hk.sending, hk.staged, fun {d o} ho => ?_⟩
  rw [outcome_setKid] at ho
  split at ho
  · next hd =>
    rw [hd]
    exact h ho
  · exact hk.outcome ho

/-- A push keeps the kinds of what is in flight. -/
theorem Kinds.post {s t : State} {e : Envelope} (hk : Kinds s) (h : s.post e = some t) :
    Kinds t := by
  obtain ⟨hsending, hstaged, hkids, -⟩ := post_flight h
  exact hk.of_eq hsending hstaged hkids

theorem kinds_step {cfg : Config} {s t : State} {l : Label} (hk : Kinds s)
    (h : step cfg s l = some t) : Kinds t := by
  cases fires_of_step h with
  | accepted e hplain hsender hopen hroom =>
    refine ⟨fun e' he' => ?_, hk.staged, hk.outcome⟩
    rcases List.mem_append.mp he' with he' | he'
    · exact hk.sending e' he'
    · rw [List.mem_singleton.mp he']
      exact hplain
  | deliver e hmem hpost =>
    have herase : Kinds { s with sending := s.sending.erase e } :=
      ⟨fun e' he' => hk.sending e' (List.mem_of_mem_erase he'), hk.staged, hk.outcome⟩
    exact herase.post hpost
  | register c kin hnew =>
    apply hk.setKid
    intro o ho
    split at ho <;> cases ho
  | expect c hkid =>
    have hset := hk.setKid (c := c) (k := ⟨.node, .running⟩) (fun ho => by cases ho)
    exact hset.of_eq rfl rfl rfl
  | join c kin hkid => exact hk.setKid fun ho => by cases ho
  | publish o kin hkid hjoined hkin =>
    exact hk.setKid fun ho => by rw [← Option.some.inj ho]
  | publishCell o hkid hjoined =>
    have hset := hk.setKid (c := o.node) (k := ⟨.cell, .published o⟩)
      (fun ho => by rw [← Option.some.inj ho])
    exact hset.of_eq rfl rfl rfl
  | notify c id o hkid hpost =>
    have hnode : o.node = c := hk.outcome (by simp [State.outcome, hkid, Phase.outcome])
    have hset := hk.setKid (c := c) (k := ⟨.node, .ended o⟩)
      (fun ho => by rw [← Option.some.inj ho, hnode])
    exact hset.post hpost
  | staged o id hout hopen hawait hnew =>
    refine ⟨hk.sending, fun e' he' => ?_, hk.outcome⟩
    rcases List.mem_append.mp he' with he' | he'
    · exact hk.staged e' he'
    · rw [List.mem_singleton.mp he']
      exact notice_plain cfg id o
  | conclude e hmem hpost =>
    have herase : Kinds { s with staged := s.staged.erase e } :=
      ⟨hk.sending, fun e' he' => hk.staged e' (List.mem_of_mem_erase he'), hk.outcome⟩
    exact herase.post hpost
  | _ => exact hk.of_eq rfl rfl rfl

theorem kinds_init (cfg : Config) : Kinds (inbox cfg).init :=
  ⟨by simp [inbox, State.init], by simp [inbox, State.init],
    by simp [inbox, State.init, State.outcome]⟩

theorem kinds_of_reachable {cfg : Config} {s : State} (h : (inbox cfg).Reachable s) :
    Kinds s :=
  LTS.System.invariant (kinds_init cfg) (fun _ _ _ hs _ hstep => kinds_step hs hstep) s h

/-! ### Descendants -/

/-- A step keeps every registered agent, and who owns it. -/
theorem kin_step {cfg : Config} {s t : State} {l : Label} (h : step cfg s l = some t)
    {c : NodeId} {k : Kid} (hk : s.kids c = some k) :
    ∃ k', t.kids c = some k' ∧ k'.kin = k.kin := by
  have hsame : ∀ {u : State}, u.kids = s.kids → ∃ k', u.kids c = some k' ∧ k'.kin = k.kin := by
    intro u hu
    rw [hu]
    exact ⟨k, hk, rfl⟩
  have hset : ∀ {u : State} {d : NodeId} {kin : Kin} {p p' : Phase}, u.kids = s.kids →
      s.kids d = some ⟨kin, p⟩ →
      ∃ k', (u.setKid d ⟨kin, p'⟩).kids c = some k' ∧ k'.kin = k.kin := by
    intro u d kin p p' hu hd
    simp only [State.setKid, hu]
    by_cases hcd : c = d
    · subst hcd
      rw [Function.update_self]
      rw [hd, Option.some.injEq] at hk
      exact ⟨_, rfl, by rw [← hk]⟩
    · rw [Function.update_of_ne hcd]
      exact ⟨k, hk, rfl⟩
  cases fires_of_step h with
  | deliver e hmem hpost => exact hsame (post_flight hpost).2.2.1
  | register d kin hnew =>
    have hcd : c ≠ d := by
      rintro rfl
      rw [hnew] at hk
      cases hk
    refine ⟨k, ?_, rfl⟩
    simp only [State.setKid, Function.update_of_ne hcd]
    exact hk
  | expect d hkid => exact hset rfl hkid
  | join d kin hkid => exact hset rfl hkid
  | publish o kin hkid hjoined hkin => exact hset rfl hkid
  | publishCell o hkid hjoined => exact hset rfl hkid
  | notify d id o hkid hpost =>
    rw [(post_flight hpost).2.2.1]
    exact hset rfl hkid
  | conclude e hmem hpost => exact hsame (post_flight hpost).2.2.1
  | _ => exact hsame rfl

/-- An outcome that can be read was published before, or is published now. -/
theorem outcome_new {cfg : Config} {s t : State} {l : Label} (h : step cfg s l = some t)
    {c : NodeId} {o : Outcome} (ho : t.outcome c = some o) :
    s.outcome c = some o ∨ (l = .publish o ∧ o.node = c) := by
  have hsame : ∀ {u : State}, u.kids = s.kids → u.outcome c = some o → s.outcome c = some o := by
    intro u hu hout
    rw [← outcome_of_kids hu]
    exact hout
  -- A phase without an outcome shows none.
  have hset : ∀ {u : State} {d : NodeId} {k : Kid}, u.kids = s.kids →
      (k.phase.outcome = none) → (u.setKid d k).outcome c = some o → s.outcome c = some o := by
    intro u d k hu hk hout
    rw [outcome_setKid] at hout
    split at hout
    · rw [hk] at hout
      cases hout
    · exact hsame hu hout
  have hpublish : ∀ {o' : Outcome} {u : State} {kin : Kin}, u.kids = s.kids →
      (u.setKid o'.node ⟨kin, .published o'⟩).outcome c = some o →
      s.outcome c = some o ∨ (Label.publish o' = .publish o ∧ o.node = c) := by
    intro o' u kin hu hout
    rw [outcome_setKid] at hout
    split at hout
    · next hc =>
      obtain rfl := Option.some.inj hout
      exact Or.inr ⟨rfl, hc.symm⟩
    · exact Or.inl (hsame hu hout)
  cases fires_of_step h with
  | deliver e hmem hpost => exact Or.inl (hsame (post_flight hpost).2.2.1 ho)
  | register d kin hnew =>
    apply Or.inl (hset rfl _ ho)
    show (if kin = .node then Phase.registered else .running).outcome = none
    split
    · rfl
    · rfl
  | expect d hkid => exact Or.inl (hset rfl rfl ho)
  | join d kin hkid => exact Or.inl (hset rfl rfl ho)
  | publish o' kin hkid hjoined hkin => exact hpublish rfl ho
  | publishCell o' hkid hjoined => exact hpublish rfl ho
  | notify d id o' hkid hpost =>
    rw [outcome_of_kids (post_flight hpost).2.2.1, outcome_setKid] at ho
    split at ho
    · next hc =>
      obtain rfl := Option.some.inj ho
      left
      simp [State.outcome, hc, hkid, Phase.outcome]
    · exact Or.inl ho
  | conclude e hmem hpost => exact Or.inl (hsame (post_flight hpost).2.2.1 ho)
  | _ => exact Or.inl (hsame (by rfl) ho)

/-! ### Wakes -/

/-- What a step does to the watch channel: nothing, or announce a wake, or
    perform one. -/
theorem wakes_step {cfg : Config} {s t : State} {l : Label} (h : step cfg s l = some t) :
    (t.version = s.version ∧ t.nextOp = s.nextOp ∧ t.wakes = s.wakes) ∨
    (t.version = s.version ∧ t.nextOp = s.nextOp + 1 ∧ t.wakes = s.wakes ++ [s.nextOp]) ∨
    (t.version = s.version + 1 ∧ t.nextOp = s.nextOp ∧
      ∃ op ∈ s.wakes, t.wakes = s.wakes.erase op) := by
  cases fires_of_step h with
  | deliver e hmem hpost =>
    obtain ⟨-, -, -, -, -, hversion, -, hwakes, hop⟩ := post_flight hpost
    exact Or.inr (Or.inl ⟨hversion, hop, hwakes⟩)
  | expect c hkid => exact Or.inr (Or.inl ⟨rfl, rfl, rfl⟩)
  | publishCell o hkid hjoined => exact Or.inr (Or.inl ⟨rfl, rfl, rfl⟩)
  | notify c id o hkid hpost =>
    obtain ⟨-, -, -, -, -, hversion, -, hwakes, hop⟩ := post_flight hpost
    exact Or.inr (Or.inl ⟨hversion, hop, hwakes⟩)
  | conclude e hmem hpost =>
    obtain ⟨-, -, -, -, -, hversion, -, hwakes, hop⟩ := post_flight hpost
    exact Or.inr (Or.inl ⟨hversion, hop, hwakes⟩)
  | close => exact Or.inr (Or.inl ⟨rfl, rfl, rfl⟩)
  | wake op hmem => exact Or.inr (Or.inr ⟨rfl, rfl, op, hmem, rfl⟩)
  | _ => exact Or.inl ⟨rfl, rfl, rfl⟩

/-- Every announced wake has a number of its own. -/
theorem wakes_of_reachable {cfg : Config} {s : State} (h : (inbox cfg).Reachable s) :
    ∀ op ∈ s.wakes, op < s.nextOp := by
  refine LTS.System.invariant (P := fun s => ∀ op ∈ s.wakes, op < s.nextOp)
    (by simp [inbox, State.init]) (fun s l t hs _ hstep op hop => ?_) s h
  rcases wakes_step hstep with ⟨-, hnext, hw⟩ | ⟨-, hnext, hw⟩ | ⟨-, hnext, op', -, hw⟩
  · rw [hw] at hop
    rw [hnext]
    exact hs op hop
  · rw [hw] at hop
    rw [hnext]
    rcases List.mem_append.mp hop with hop | hop
    · exact Nat.lt_succ_of_lt (hs op hop)
    · rw [List.mem_singleton.mp hop]
      exact Nat.lt_succ_self _
  · rw [hw] at hop
    rw [hnext]
    exact hs op (List.mem_of_mem_erase hop)

end Kyora.Inbox
