import Kyora.Mcp.Processes

/-! # How servers end

  A server that was let go of leaves nothing behind in its group. A shutdown sends
  `SIGTERM` and then `SIGKILL`, each once and not before its time, and comes to an
  end whatever the server does.
-/

namespace Kyora.Mcp.Processes

open Groups (Custody Holding)

section

variable {s t : State} {l : Label} {k : Nat} {pc pc' : Pc} {h : Holding} {a : Groups.Act}
  {sent : List Sent} {ls : List Label}

/-! ### What is left -/

/-- What holds of a server's group, whatever else happens. -/
structure Contained (s : State) (k : Nat) (pc : Pc) (h : Holding) : Prop where
  /-- Nothing of it lives after `SIGKILL`, and when it was let go of. -/
  quiet : pc.isKilled = true ∨ pc = .leaving ∨ pc = .gone → s.custody.table.Quiet k
  /-- A signal to it reaches nobody else, unless nothing of the server is left. -/
  own : ∀ q ∈ s.custody.table.processes, q.group = h.pid → q.holder = some k ∨
    h.status ≠ none ∧ ∀ p ∈ s.custody.table.processes, p.holder ≠ some k
  /-- `kill_servers` finds it from its registration until it is let go of, unless
      a server that ended had its number. -/
  listed : pc ≠ .spawned → pc ≠ .gone → h.pid ∈ s.custody.registry ∨
    ∃ (j : Nat) (g : Holding), s.custody.holdings[j]? = some g ∧ g.stage = .released ∧
      g.pid = h.pid

/-- A server whose process exits at once, with one it had started before. -/
def exitedRun : List Label :=
  [.spawn 7, .register 0, .outside (.fork 7 8), .stop 0, .outside (.exit 7 0), .poll 0, .close 0,
    .remove 0]

theorem run_exited : ∃ s, system.run system.init exitedRun = some s ∧
    s.servers[0]? = some .gone ∧ s.custody.holdings[0]? = some ⟨7, .released, some (some 0)⟩ ∧
    s.custody.table.processes = [⟨8, 7, some 0, some none⟩] :=
  ⟨_, rfl, rfl, rfl, rfl⟩

/-- The signals of a server's shutdown. -/
def State.sentTo (s : State) (k : Nat) : List Sent := s.sent.filter fun x => x.server == k

/-- When a signal may be sent that was asked for at a time. -/
def Signal.due (asked : Nat) : Signal → Nat
  | .term => asked + exitGrace
  | .kill => asked + exitGrace + termGrace

/-- The signals that a server was sent when it stands so. -/
def Signalled (pc : Pc) (signals : List Signal) : Prop :=
  match pc with
  | .terminating _ _ => signals = [.term]
  | .killing => signals = [.term, .kill]
  | .ended => signals <+: [.term, .kill]
  | .leaving => signals <+: [.term, .kill]
  | .gone => signals <+: [.term, .kill]
  | _ => signals = []

/-- The shutdown that sends `SIGTERM` has waited. -/
def Waited : Pc → Prop
  | .terminating asked since => asked + exitGrace ≤ since
  | _ => True

structure Graceful (s : State) : Prop where
  order : ∀ k pc, s.servers[k]? = some pc → Signalled pc ((s.sentTo k).map Sent.signal)
  unsent : ∀ x ∈ s.sent, x.server < s.servers.length
  due : ∀ x ∈ s.sent, x.signal.due x.asked ≤ x.time
  waited : ∀ (k : Nat) (pc : Pc), s.servers[k]? = some pc → Waited pc

theorem Signalled.isPrefix {signals : List Signal} (h : Signalled pc signals) :
    signals <+: [.term, .kill] := by
  cases pc with
  | terminating asked since =>
    have hterm : signals = [.term] := h
    exact hterm ▸ ⟨[.kill], rfl⟩
  | killing =>
    have hall : signals = [.term, .kill] := h
    exact hall ▸ List.prefix_refl _
  | ended => exact h
  | leaving => exact h
  | gone => exact h
  | _ =>
    have hnone : signals = [] := h
    exact hnone ▸ List.nil_prefix

/-- What a change sends keeps the order. -/
theorem Changes.signalled {act : Option Groups.Act} {signals : List Signal}
    (hchange : Changes s k l pc pc' act sent) (h : Signalled pc signals) :
    Signalled pc' (signals ++ sent.map Sent.signal) := by
  have hnil : signals ++ ([] : List Sent).map Sent.signal = signals := List.append_nil _
  have hprefix := h.isPrefix
  cases hchange with
  | register => exact hnil.trans h
  | stop => exact hnil.trans h
  | fail => exact hnil.trans h
  | reap pc next hnext =>
    rw [hnil]
    cases pc <;> cases hnext <;> first | exact hprefix | exact h
  | waitFails pc next hnext =>
    rw [hnil]
    cases pc <;> cases hnext <;> first | exact hprefix | exact h
  | term asked =>
    have hnone : signals = [] := h
    exact hnone ▸ rfl
  | kill asked since =>
    have hterm : signals = [.term] := h
    exact hterm ▸ rfl
  | undrained => rw [hnil]; exact hprefix
  | drained => rw [hnil]; exact hprefix
  | close => rw [hnil]; exact hprefix
  | drop pc => rw [hnil]; exact hprefix
  | remove => rw [hnil]; exact hprefix

/-- A change sends signals to its server, when they are due. -/
theorem Changes.due {act : Option Groups.Act} (hchange : Changes s k l pc pc' act sent)
    (hwaited : Waited pc) :
    (∀ x ∈ sent, x.server = k ∧ x.signal.due x.asked ≤ x.time) ∧ Waited pc' := by
  cases hchange with
  | term asked hlate =>
    refine ⟨fun x hx => ?_, hlate⟩
    rw [List.mem_singleton.mp hx]
    exact ⟨rfl, hlate⟩
  | kill asked since hlate =>
    refine ⟨fun x hx => ?_, trivial⟩
    rw [List.mem_singleton.mp hx]
    exact ⟨rfl, Nat.le_trans (Nat.add_le_add_right hwaited termGrace) hlate⟩
  | reap pc next hnext =>
    refine ⟨fun x hx => absurd hx List.not_mem_nil, ?_⟩
    cases pc <;> cases hnext <;> exact trivial
  | waitFails pc next hnext =>
    refine ⟨fun x hx => absurd hx List.not_mem_nil, ?_⟩
    cases pc <;> cases hnext <;> exact trivial
  | _ => exact ⟨fun x hx => absurd hx List.not_mem_nil, trivial⟩

/-- Signals for one server are not for another. -/
theorem sentTo_append {servers : List Pc} {custody : Custody} (hsent : ∀ x ∈ sent, x.server = k)
    (j : Nat) :
    (State.sentTo ⟨custody, servers, s.now, s.sent ++ sent⟩ j).map Sent.signal =
      (s.sentTo j).map Sent.signal ++ if k = j then sent.map Sent.signal else [] := by
  unfold State.sentTo
  rw [List.filter_append, List.map_append]
  split
  · next hkj =>
    rw [List.filter_eq_self.mpr fun x hx => beq_iff_eq.mpr ((hsent x hx).trans hkj)]
  · next hkj =>
    have hnone : sent.filter (fun x => x.server == j) = [] :=
      List.filter_eq_nil_iff.mpr fun x hx heq => hkj ((hsent x hx).symm.trans (beq_iff_eq.mp heq))
    rw [hnone, List.map_nil]

/-- A changed server keeps the order and the times. -/
theorem Graceful.change {act : Option Groups.Act} {custody : Custody} (hg : Graceful s)
    (hget : s.servers[k]? = some pc) (hchange : Changes s k l pc pc' act sent) :
    Graceful ⟨custody, s.servers.set k pc', s.now, s.sent ++ sent⟩ := by
  obtain ⟨hsent, hwaited⟩ := hchange.due (hg.waited k pc hget)
  refine ⟨fun j other hj => ?_, fun x hx => ?_, fun x hx => ?_, fun j other hj => ?_⟩
  · rw [sentTo_append fun x hx => (hsent x hx).1]
    rcases Pool.getElem?_set_cases hget hj with ⟨hne, hj'⟩ | ⟨rfl, rfl⟩
    · rw [if_neg hne, List.append_nil]
      exact hg.order j other hj'
    · rw [if_pos rfl]
      exact hchange.signalled (hg.order k pc hget)
  · show x.server < (s.servers.set k pc').length
    rw [List.length_set]
    rcases List.mem_append.mp hx with hold | hnew
    · exact hg.unsent x hold
    · rw [(hsent x hnew).1]
      exact (List.getElem?_eq_some_iff.mp hget).1
  · rcases List.mem_append.mp hx with hold | hnew
    · exact hg.due x hold
    · exact (hsent x hnew).2
  · rcases Pool.getElem?_set_cases hget hj with ⟨-, hj'⟩ | ⟨rfl, rfl⟩
    · exact hg.waited j other hj'
    · exact hwaited

theorem graceful : ∀ s, system.Reachable s → Graceful s := by
  apply LTS.System.invariant
  · refine ⟨fun k pc hget => ?_, fun x hx => ?_, fun x hx => ?_, fun k pc hget => ?_⟩
    · cases hget
    · cases hx
    · cases hx
    · cases hget
  · intro s l t hg _ hstep
    cases moves hstep with
    | pass => exact ⟨hg.order, hg.unsent, hg.due, hg.waited⟩
    | outside => exact ⟨hg.order, hg.unsent, hg.due, hg.waited⟩
    | killServers => exact ⟨hg.order, hg.unsent, hg.due, hg.waited⟩
    | spawn pid custody =>
      refine ⟨fun k pc hget => ?_, fun x hx => ?_, hg.due, fun k pc hget => ?_⟩
      · rcases Pool.getElem?_snoc hget with hold | ⟨rfl, rfl⟩
        · exact hg.order k pc hold
        · have hnone : s.sentTo s.servers.length = [] := by
            refine List.filter_eq_nil_iff.mpr fun x hx heq => ?_
            have hlt := hg.unsent x hx
            rw [beq_iff_eq.mp heq] at hlt
            exact Nat.lt_irrefl _ hlt
          show Signalled .spawned ((s.sentTo s.servers.length).map Sent.signal)
          rw [hnone]
          rfl
      · show x.server < (s.servers ++ [_]).length
        rw [List.length_append]
        exact Nat.lt_add_right _ (hg.unsent x hx)
      · rcases Pool.getElem?_snoc hget with hold | ⟨rfl, rfl⟩
        · exact hg.waited k pc hold
        · trivial
    | change l k pc pc' sent hget hchange => exact hg.change hget hchange
    | changeAct l k pc pc' a sent custody hget hchange => exact hg.change hget hchange

/-- A server that takes no notice. -/
def stubbornRun : List Label :=
  [.spawn 7, .register 0, .stop 0, .pass exitGrace, .poll 0, .pass termGrace, .poll 0]

theorem run_stubborn : ∃ s, system.run system.init stubbornRun = some s ∧
    s.sent = [⟨0, .term, 0, exitGrace⟩, ⟨0, .kill, 0, exitGrace + termGrace⟩] :=
  ⟨_, rfl, rfl⟩

/-- A step that ends a server, but for the call that begins it. -/
def Label.isOwn (k : Nat) : Label → Bool
  | .poll j => j == k
  | .waitFails j => j == k
  | .drained j => j == k
  | .close j => j == k
  | .drop j => j == k
  | .remove j => j == k
  | _ => false

/-- Somebody stops it or lets go of it. -/
def Pc.isEnding : Pc → Bool
  | .spawned => false
  | .running => false
  | _ => true

/-- The steps to the end. -/
def Pc.left : Pc → Nat
  | .spawned => 6
  | .running => 6
  | .exiting _ => 5
  | .terminating _ _ => 4
  | .killing => 3
  | .failing => 4
  | .draining _ => 3
  | .ended => 2
  | .leaving => 1
  | .gone => 0

theorem reaped_left {now : Nat} {next : Pc} (hnext : pc.reaped now = some next) :
    next.left + 1 ≤ pc.left ∧ pc.isEnding = true ∧ next.isEnding = true := by
  cases pc <;> cases hnext <;> simp [Pc.left, Pc.isEnding]

theorem held_left (hheld : pc.isHeld = true) : 2 ≤ pc.left := by
  cases pc <;> simp_all [Pc.isHeld, Pc.left]

/-- A change counts, if it is a step of its own. -/
theorem Changes.left {act : Option Groups.Act} (hchange : Changes s k l pc pc' act sent) :
    pc'.left + (l.isOwn k).toNat ≤ pc.left ∧ (pc.isEnding = true → pc'.isEnding = true) := by
  have hown : (k == k).toNat = 1 := by rw [beq_self_eq_true]; rfl
  cases hchange with
  | register => exact ⟨Nat.le_refl 6, id⟩
  | stop => exact ⟨Nat.le_succ 5, fun _ => rfl⟩
  | fail => exact ⟨(by decide : 4 ≤ 6), fun _ => rfl⟩
  | reap pc next hnext =>
    obtain ⟨hless, -, hending⟩ := reaped_left hnext
    refine ⟨?_, fun _ => hending⟩
    rw [Label.isOwn, hown]
    exact hless
  | waitFails pc next hnext =>
    obtain ⟨hless, -, hending⟩ := reaped_left hnext
    refine ⟨?_, fun _ => hending⟩
    rw [Label.isOwn, hown]
    exact hless
  | drop pc hheld =>
    refine ⟨?_, fun _ => rfl⟩
    rw [Label.isOwn, hown]
    exact held_left hheld
  | _ =>
    refine ⟨?_, fun _ => rfl⟩
    rw [Label.isOwn, hown]
    exact Nat.le_refl _

theorem Changes.isOwn_ne {act : Option Groups.Act} {j : Nat}
    (hchange : Changes s j l pc pc' act sent) (hne : j ≠ k) : l.isOwn k = false := by
  cases hchange <;> first | rfl | exact beq_false_of_ne hne

theorem left_step (hget : s.servers[k]? = some pc) (hmove : Moves s l t) :
    ∃ pc', t.servers[k]? = some pc' ∧ pc'.left + (l.isOwn k).toNat ≤ pc.left ∧
      (pc.isEnding = true → pc'.isEnding = true) := by
  have hset : ∀ {j : Nat} {old new : Pc} {act : Option Groups.Act} {sent : List Sent},
      s.servers[j]? = some old → Changes s j l old new act sent →
      ∃ pc', (s.servers.set j new)[k]? = some pc' ∧ pc'.left + (l.isOwn k).toNat ≤ pc.left ∧
        (pc.isEnding = true → pc'.isEnding = true) := by
    intro j old new act sent hj hchange
    by_cases hjk : j = k
    · subst hjk
      obtain rfl : pc = old := Option.some.inj (hget.symm.trans hj)
      exact ⟨new, List.getElem?_set_self (List.getElem?_eq_some_iff.mp hget).1, hchange.left⟩
    · refine ⟨pc, (List.getElem?_set_ne hjk).trans hget, ?_, id⟩
      rw [hchange.isOwn_ne hjk]
      exact Nat.le_refl _
  cases hmove with
  | pass => exact ⟨pc, hget, Nat.le_refl _, id⟩
  | outside => exact ⟨pc, hget, Nat.le_refl _, id⟩
  | killServers => exact ⟨pc, hget, Nat.le_refl _, id⟩
  | spawn =>
    refine ⟨pc, ?_, Nat.le_refl _, id⟩
    show (s.servers ++ [_])[k]? = _
    rw [List.getElem?_append_left (List.getElem?_eq_some_iff.mp hget).1]
    exact hget
  | change l j old new sent hj hchange => exact hset hj hchange
  | changeAct l j old new a sent custody hj hchange => exact hset hj hchange

theorem left_run (hs : system.Reachable s) (hget : s.servers[k]? = some pc)
    (hrun : system.run s ls = some t) :
    ∃ pc', t.servers[k]? = some pc' ∧ pc'.left + ls.countP (Label.isOwn k) ≤ pc.left ∧
      (pc.isEnding = true → pc'.isEnding = true) :=
  hs.budget (P := fun s pc => s.servers[k]? = some pc) (Q := fun _ pc => pc.isEnding = true)
    (fun _ _ _ _ _ hget hstep => left_step hget (moves hstep)) hget hrun

/-- The times that a server waits from are past. -/
def Timed (now : Nat) : Pc → Prop
  | .exiting asked => asked ≤ now
  | .terminating _ since => since ≤ now
  | _ => True

theorem reaped_timed {now : Nat} {next : Pc} (hnext : pc.reaped now = some next) :
    Timed now next := by
  cases pc <;> cases hnext <;> exact trivial

theorem timed : ∀ s, system.Reachable s →
    ∀ (k : Nat) (pc : Pc), s.servers[k]? = some pc → Timed s.now pc := by
  apply LTS.System.invariant
  · intro k pc hget
    cases hget
  · intro s l t htimed _ hstep
    have hset : ∀ {j : Nat} {old new : Pc} {act : Option Groups.Act} {sent : List Sent},
        s.servers[j]? = some old → Changes s j l old new act sent →
        ∀ (k : Nat) (pc : Pc), (s.servers.set j new)[k]? = some pc → Timed s.now pc := by
      intro j old new act sent hj hchange k pc hget
      rcases Pool.getElem?_set_cases hj hget with ⟨-, hold⟩ | ⟨rfl, rfl⟩
      · exact htimed k pc hold
      · cases hchange with
        | stop => exact Nat.le_refl s.now
        | term => exact Nat.le_refl s.now
        | reap _ _ hnext => exact reaped_timed hnext
        | waitFails _ _ hnext => exact reaped_timed hnext
        | _ => exact trivial
    cases moves hstep with
    | pass time =>
      intro k pc hget
      have hold := htimed k pc hget
      cases pc with
      | exiting asked => exact Nat.le_trans hold (Nat.le_add_right _ _)
      | terminating asked since => exact Nat.le_trans hold (Nat.le_add_right _ _)
      | _ => exact trivial
    | outside => exact htimed
    | killServers => exact htimed
    | spawn =>
      intro k pc hget
      rcases Pool.getElem?_snoc hget with hold | ⟨rfl, rfl⟩
      · exact htimed k pc hold
      · exact trivial
    | change l j old new sent hj hchange => exact hset hj hchange
    | changeAct l j old new a sent custody hj hchange => exact hset hj hchange

/-- A process that has exited can be reaped. -/
theorem wait_isSome (hs : Sound s) (hget : s.servers[k]? = some pc)
    (hheld : s.custody.holdings[k]? = some h) (hunreaped : pc.isUnreaped = true)
    (hexited : s.hasExited k = true) (next : Pc) :
    ((s.put k next).act (.wait k)).isSome = true := by
  have hstatus := (hs.servers k pc h hget hheld).awaited hunreaped
  unfold State.hasExited at hexited
  rw [hheld, Option.bind_some] at hexited
  obtain ⟨code, hcode⟩ := Option.isSome_iff_exists.mp hexited
  have hput : (s.put k next).custody = s.custody := rfl
  simp [State.act, Custody.step, hput, hheld, hstatus, hcode, Groups.Table.act]

/-- After `SIGKILL` the process has exited. -/
theorem exited_of_killed (hs : Sound s) (hget : s.servers[k]? = some pc)
    (hheld : s.custody.holdings[k]? = some h) (hunreaped : pc.isUnreaped = true)
    (hkilled : pc.isKilled = true) : s.hasExited k = true := by
  have htold := hs.servers k pc h hget hheld
  obtain ⟨code, hcode⟩ :=
    ((hs.custody.grouped k h hheld).leads (htold.awaited hunreaped)).ended (htold.killed hkilled)
  unfold State.hasExited
  rw [hheld, Option.bind_some, hcode]
  rfl

/-- A server that is ending has a step to take, once its time has passed. -/
theorem own_step (hs : Sound s) (htimed : Timed s.now pc) (hget : s.servers[k]? = some pc)
    (hending : pc.isEnding = true) (hover : pc ≠ .gone) :
    ∃ l, l.isOwn k = true ∧ (system.run s [.pass termGrace, l]).isSome = true := by
  have hlt := (List.getElem?_eq_some_iff.mp hget).1
  rw [hs.length] at hlt
  have hheld := List.getElem?_eq_getElem hlt
  generalize s.custody.holdings[k] = h at hheld
  have hstage := (hs.servers k pc h hget hheld).stage
  -- The state once the time has passed.
  have hlater : ∀ l, (({ s with now := s.now + termGrace } : State).step l).isSome = true →
      (system.run s [.pass termGrace, l]).isSome = true := by
    intro l hsome
    obtain ⟨t, ht⟩ := Option.isSome_iff_exists.mp hsome
    have hrun : system.run s [.pass termGrace, l] = some t :=
      (LTS.System.run_cons _).mpr ⟨_, rfl, (LTS.System.run_cons _).mpr ⟨t, ht, rfl⟩⟩
    rw [hrun]
    rfl
  have hs' : Sound { s with now := s.now + termGrace } := ⟨hs.custody, hs.length, hs.servers⟩
  generalize hnext : ({ s with now := s.now + termGrace } : State) = u at hlater hs'
  have hget' : u.servers[k]? = some pc := hnext ▸ hget
  have hheld' : u.custody.holdings[k]? = some h := hnext ▸ hheld
  have hnow : u.now = s.now + termGrace := hnext ▸ rfl
  obtain ⟨pid, stage, status⟩ := h
  cases pc with
  | spawned => cases hending
  | running => cases hending
  | exiting asked =>
    refine ⟨.poll k, beq_self_eq_true k, hlater _ ?_⟩
    have hlate : asked + exitGrace ≤ u.now := by
      rw [hnow]
      exact Nat.add_le_add_right htimed _
    simp only [State.step, hget', Option.bind_eq_bind, Option.bind_some, State.poll, Pc.reaped]
    by_cases hexited : u.hasExited k = true
    · rw [if_pos hexited]
      exact wait_isSome hs' hget' hheld' rfl hexited _
    · rw [if_neg hexited, if_pos hlate, Option.isSome_some]
  | terminating asked since =>
    refine ⟨.poll k, beq_self_eq_true k, hlater _ ?_⟩
    have hlate : since + termGrace ≤ u.now := by
      rw [hnow]
      exact Nat.add_le_add_right htimed _
    simp only [State.step, hget', Option.bind_eq_bind, Option.bind_some, State.poll, Pc.reaped]
    by_cases hexited : u.hasExited k = true
    · rw [if_pos hexited]
      exact wait_isSome hs' hget' hheld' rfl hexited _
    · rw [if_neg hexited, if_pos hlate]
      obtain rfl : stage = .registered := hstage
      have hput : ((u.put k .killing).send k .kill asked).custody.holdings[k]? =
        some ⟨pid, .registered, status⟩ := hheld'
      simp [State.act, Custody.step, hput, Groups.Table.act]
  | killing =>
    refine ⟨.poll k, beq_self_eq_true k, hlater _ ?_⟩
    simp only [State.step, hget', Option.bind_eq_bind, Option.bind_some, State.poll, Pc.reaped]
    have hexited := exited_of_killed hs' hget' hheld' rfl rfl
    rw [if_pos hexited]
    exact wait_isSome hs' hget' hheld' rfl hexited _
  | failing =>
    refine ⟨.poll k, beq_self_eq_true k, hlater _ ?_⟩
    simp only [State.step, hget', Option.bind_eq_bind, Option.bind_some, State.poll, Pc.reaped]
    have hexited := exited_of_killed hs' hget' hheld' rfl rfl
    rw [if_pos hexited]
    exact wait_isSome hs' hget' hheld' rfl hexited _
  | draining since =>
    refine ⟨.drained k, beq_self_eq_true k, hlater _ ?_⟩
    simp [State.step, hget']
  | ended =>
    refine ⟨.close k, beq_self_eq_true k, hlater _ ?_⟩
    obtain rfl : stage = .registered := hstage
    have hput : (u.put k .leaving).custody.holdings[k]? = some ⟨pid, .registered, status⟩ := hheld'
    simp [State.step, hget', State.act, Custody.step, hput, Groups.Table.act]
  | leaving =>
    refine ⟨.remove k, beq_self_eq_true k, hlater _ ?_⟩
    obtain rfl : stage = .closing := hstage
    have hput : (u.put k .gone).custody.holdings[k]? = some ⟨pid, .closing, status⟩ := hheld'
    simp [State.step, hget', State.act, Custody.step, hput]
  | gone => exact absurd rfl hover

end

end Kyora.Mcp.Processes
