import Kyora.Shell.Execute

/-! # What a shell call leaves behind

  From the first kill of its group on, a call has no living process there, and
  none will come. The group of a call that has returned or was dropped is killed
  and out of the registry; until then `cancel_processes` finds it.

  * `Sound`: what is true of the calls and their groups.
  * `calls_contained`: nothing of a call outlives its kill.
  * `calls_end`: a call that is cancelled or late comes to its end.
-/

namespace Kyora.Shell

open Groups (Custody Table Holding Act)

section

variable {seconds : Json → Except String Nat} {config : Config} {s t : State} {l : Label}
  {k : Nat} {call call' : Call} {h : Holding} {a : Act}

/-! ### The groups -/

/-- A step of the calls is an act of the program on its groups, or none. -/
theorem custody_step (hmove : Moves seconds config s l t) :
    t.custody = s.custody ∨ ∃ a, s.custody.step a = some t.custody := by
  cases hmove with
  | pass => exact .inl rfl
  | act l a custody _ hact => exact .inr ⟨a, hact⟩
  | spawn input nodeDeadline pid timeout command custody _ hact => exact .inr ⟨_, hact⟩
  | change => exact .inl rfl
  | changeAct l k call call' a custody _ _ hact => exact .inr ⟨a, hact⟩

theorem custody_reachable (hs : (system seconds config).Reachable s) :
    Groups.Custody.system.Reachable s.custody :=
  LTS.System.reachable_map State.custody rfl
    (fun _ _ _ hstep => custody_step (moves hstep)) s hs

/-! ### The invariant -/

/-- The group was killed by the call itself. -/
def Wait.isKilled : Wait → Bool
  | .killed _ => true
  | .done _ _ => true
  | _ => false

/-- What is true of one call and its group. -/
structure Told (table : Table) (k : Nat) (call : Call) (h : Holding) : Prop where
  fresh : h.stage = .started → call.wait = .pending ∧ call.deadline = call.nodeDeadline
  /-- The shell is reaped by its wait only. -/
  awaited : call.wait = .pending ∨ (∃ reason, call.wait = .killed reason) → h.status = none
  killed : call.wait.isKilled = true → table.Quiet k

structure Sound (s : State) : Prop where
  custody : s.custody.Sound
  length : s.calls.length = s.custody.holdings.length
  calls : ∀ (k : Nat) (call : Call) (h : Holding), s.calls[k]? = some call →
    s.custody.holdings[k]? = some h → Told s.custody.table k call h

theorem Told.act {c d : Custody} (hold : ∀ h, c.holdings[k]? = some h → Told c.table k call h)
    (hlt : k < c.holdings.length) (hmove : Custody.Moves c a d)
    (ha : a ≠ .wait k ∧ ∀ pid, a ≠ .start pid) {f : Holding} (hf : d.holdings[k]? = some f) :
    Told d.table k call f := by
  rcases Custody.holdings_step hmove hf with ⟨h, hh, -, hstage, hstatus⟩ | ⟨pid, hpid, -, -⟩
  · have htold := hold h hh
    refine ⟨fun hs => htold.fresh (hstage hs), fun hwait => ?_, fun hkilled => ?_⟩
    · rw [hstatus ha.1]
      exact htold.awaited hwait
    · exact (Custody.quiet_step (htold.killed hkilled) hlt hmove).1
  · exact absurd hpid (ha.2 pid)

/-- A running call's group is registered. -/
theorem not_started {c : Call} (hrunning : s.running k = some c)
    (hget : s.custody.holdings[k]? = some h) : h.stage ≠ .started := by
  intro hstage
  obtain ⟨held, hheld, hregistered, -, -⟩ := running_eq_some hrunning
  obtain rfl : h = held := Option.some.inj (hget.symm.trans hheld)
  rw [hstage] at hregistered
  cases hregistered

/-- What changes in a call keeps what is true of it. -/
theorem Told.change (htold : Told s.custody.table k call h)
    (hget : s.custody.holdings[k]? = some h)
    (hchange : Changes config s k call l call' none) : Told s.custody.table k call' h := by
  have hpipe : ∀ (drain : Drain) (pipe : Pipe),
      Told s.custody.table k (call.setPipe drain pipe) h := by
    intro drain pipe
    cases pipe with
    | stdout => exact ⟨htold.fresh, htold.awaited, htold.killed⟩
    | stderr => exact ⟨htold.fresh, htold.awaited, htold.killed⟩
  cases hchange with
  | cancel => exact ⟨htold.fresh, htold.awaited, htold.killed⟩
  | read pipe bytes => exact hpipe _ pipe
  | eof pipe => exact hpipe _ pipe
  | readFails pipe error => exact hpipe _ pipe
  | cut pipe => exact hpipe _ pipe
  | exitFails error hrunning =>
    refine ⟨fun hstage => absurd hstage (not_started hrunning hget), fun hwait => ?_,
      fun hkilled => ?_⟩
    · rcases hwait with hwait | ⟨reason, hwait⟩ <;> cases hwait
    · cases hkilled
  | reapFails error reason hrunning hwait =>
    refine ⟨fun hstage => absurd hstage (not_started hrunning hget), fun hnext => ?_, fun _ => ?_⟩
    · rcases hnext with hnext | ⟨_, hnext⟩ <;> cases hnext
    · exact htold.killed (by rw [hwait]; rfl)
  | join outcome => exact ⟨htold.fresh, htold.awaited, htold.killed⟩

theorem Told.changeAct {custody : Custody} (hs : Sound s) (hget : s.calls[k]? = some call)
    (hchange : Changes config s k call l call' (some a)) (hact : s.custody.step a = some custody)
    {f : Holding} (hf : custody.holdings[k]? = some f) : Told custody.table k call' f := by
  have hlt : k < s.custody.holdings.length := by
    rw [← hs.length]
    exact (List.getElem?_eq_some_iff.mp hget).1
  have hmove := Custody.moves hact
  have hstart : ∀ pid, a ≠ .start pid := by
    intro pid heq
    subst heq
    cases hchange
  obtain ⟨h, hh, -, hstage, hstatus⟩ : ∃ h, s.custody.holdings[k]? = some h ∧ f.pid = h.pid ∧
      (f.stage = .started → h.stage = .started) ∧ (a ≠ .wait k → f.status = h.status) := by
    rcases Custody.holdings_step hmove hf with hold | ⟨pid, hpid, -, -⟩
    · exact hold
    · exact absurd hpid (hstart pid)
  have htold := hs.calls k call h hget hh
  cases hchange with
  | register =>
    have hwait : (s.started config call).wait = call.wait := by
      unfold State.started
      split <;> rfl
    refine ⟨fun hfresh => ?_, fun hnext => ?_, fun hkilled => ?_⟩
    · obtain ⟨-, g, hg, -, hregistered⟩ := Custody.stage_step hmove hh
      obtain rfl : f = g := Option.some.inj (hf.symm.trans hg)
      rw [hfresh, Custody.stageAfter, if_pos rfl] at hregistered
      cases hregistered
    · rw [hwait] at hnext
      rw [hstatus Act.noConfusion]
      exact htold.awaited hnext
    · rw [hwait] at hkilled
      exact (Custody.quiet_step (htold.killed hkilled) hlt hmove).1
  | stop reason hrunning hwait =>
    refine ⟨fun hfresh => absurd (hstage hfresh) (not_started hrunning hh), fun _ => ?_,
      fun _ => ?_⟩
    · rw [hstatus Act.noConfusion]
      exact htold.awaited (.inl hwait)
    · exact hs.custody.killed hact
  | exit _ status hrunning =>
    refine ⟨fun hfresh => absurd (hstage hfresh) (not_started hrunning hh), fun hnext => ?_,
      fun hkilled => ?_⟩
    · rcases hnext with hnext | ⟨_, hnext⟩ <;> cases hnext
    · cases hkilled
  | reap reason status hrunning hwait =>
    refine ⟨fun hfresh => absurd (hstage hfresh) (not_started hrunning hh), fun hnext => ?_,
      fun _ => ?_⟩
    · rcases hnext with hnext | ⟨_, hnext⟩ <;> cases hnext
    · have hquiet := htold.killed (by rw [hwait]; rfl)
      exact (Custody.quiet_step hquiet hlt hmove).1
  | kill status hrunning =>
    refine ⟨fun hfresh => absurd (hstage hfresh) (not_started hrunning hh), fun hnext => ?_,
      fun _ => hs.custody.killed hact⟩
    rcases hnext with hnext | ⟨_, hnext⟩ <;> cases hnext

/-- A call keeps what is true of it while another's group is acted on. -/
theorem Told.other (hs : Sound s) {custody : Custody} {j : Nat} {other : Call}
    (hget : s.calls[j]? = some other) (hact : s.custody.step a = some custody)
    (ha : a ≠ .wait j ∧ ∀ pid, a ≠ .start pid) {f : Holding}
    (hf : custody.holdings[j]? = some f) : Told custody.table j other f := by
  have hlt : j < s.custody.holdings.length := by
    rw [← hs.length]
    exact (List.getElem?_eq_some_iff.mp hget).1
  exact Told.act (fun h hh => hs.calls j other h hget hh) hlt (Custody.moves hact) ha hf

/-- The act of a change is about the call that changes. -/
theorem Changes.act_eq (hchange : Changes config s k call l call' (some a)) :
    (∀ pid, a ≠ .start pid) ∧ ∀ j, a = .wait j → j = k := by
  cases hchange with
  | register => exact ⟨fun _ => Act.noConfusion, fun _ => Act.noConfusion⟩
  | stop => exact ⟨fun _ => Act.noConfusion, fun _ => Act.noConfusion⟩
  | exit => exact ⟨fun _ => Act.noConfusion, fun _ heq => (Act.wait.inj heq).symm⟩
  | reap => exact ⟨fun _ => Act.noConfusion, fun _ heq => (Act.wait.inj heq).symm⟩
  | kill => exact ⟨fun _ => Act.noConfusion, fun _ => Act.noConfusion⟩

theorem sound_step (hs : Sound s) (hmove : Moves seconds config s l t) : Sound t := by
  have hcustody : t.custody.Sound := by
    rcases custody_step hmove with heq | ⟨a, hact⟩
    · exact heq ▸ hs.custody
    · exact Custody.sound_step hs.custody (Custody.moves hact)
  refine ⟨hcustody, ?_, ?_⟩
  · cases hmove with
    | pass => exact hs.length
    | act l a custody hacts hact =>
      refine hs.length.trans (Custody.length_step (Custody.moves hact) ?_).symm
      cases hacts <;> exact fun _ => Act.noConfusion
    | spawn input nodeDeadline pid timeout command custody _ hact =>
      cases Custody.moves hact with
      | start _ table _ =>
        show (s.calls ++ [_]).length = (s.custody.holdings ++ [_]).length
        rw [List.length_append, List.length_append, hs.length]
        rfl
    | change => exact List.length_set.trans hs.length
    | changeAct l k call call' a custody _ hchange hact =>
      exact (List.length_set.trans hs.length).trans
        (Custody.length_step (Custody.moves hact) hchange.act_eq.1).symm
  · cases hmove with
    | pass => exact hs.calls
    | act l a custody hacts hact =>
      intro j other f hj hf
      refine Told.other hs hj hact ?_ hf
      cases hacts <;> exact ⟨Act.noConfusion, fun _ => Act.noConfusion⟩
    | spawn input nodeDeadline pid timeout command custody _ hact =>
      intro j other f hj hf
      cases Custody.moves hact with
      | start _ table htable =>
        rcases Pool.getElem?_snoc hj with hj' | ⟨rfl, rfl⟩
        · have hlt : j < s.custody.holdings.length := by
            rw [← hs.length]
            exact (List.getElem?_eq_some_iff.mp hj').1
          have hf' : s.custody.holdings[j]? = some f := by
            rcases Pool.getElem?_snoc hf with hf' | ⟨heq, -⟩
            · exact hf'
            · omega
          have htold := hs.calls j other f hj' hf'
          refine ⟨htold.fresh, htold.awaited, fun hkilled => ?_⟩
          exact (Custody.quiet_step (htold.killed hkilled) hlt (Custody.moves hact)).1
        · rcases Pool.getElem?_snoc hf with hf' | ⟨-, rfl⟩
          · have hlt := (List.getElem?_eq_some_iff.mp hf').1
            rw [hs.length] at hlt
            exact absurd hlt (Nat.lt_irrefl _)
          · exact ⟨fun _ => ⟨rfl, rfl⟩, fun _ => rfl, fun hkilled => by cases hkilled⟩
    | change l k call call' hget hchange =>
      intro j other f hj hf
      rcases Pool.getElem?_set_cases hget hj with ⟨-, hj'⟩ | ⟨rfl, rfl⟩
      · exact hs.calls j other f hj' hf
      · exact (hs.calls k call f hget hf).change hf hchange
    | changeAct l k call call' a custody hget hchange hact =>
      intro j other f hj hf
      rcases Pool.getElem?_set_cases hget hj with ⟨hne, hj'⟩ | ⟨rfl, rfl⟩
      · refine Told.other hs hj' hact ⟨fun heq => hne ?_, hchange.act_eq.1⟩ hf
        exact (hchange.act_eq.2 j heq).symm
      · exact Told.changeAct hs hget hchange hact hf

theorem sound : ∀ s, (system seconds config).Reachable s → Sound s := by
  apply LTS.System.invariant
  · refine ⟨Custody.sound _ .init, rfl, fun k call h hget => ?_⟩
    cases hget
  · intro s l t hs _ hstep
    exact sound_step hs (moves hstep)

/-- A call that is cut stays so. -/
theorem Changes.isCut {act : Option Act} (hchange : Changes config s k call l call' act)
    (hfresh : act = some (.register k) → call.deadline = call.nodeDeadline)
    (hcut : call.isCut s.now = true) : call'.isCut s.now = true := by
  have hpipe : ∀ (drain : Drain) (pipe : Pipe), (call.setPipe drain pipe).isCut s.now = true := by
    intro drain pipe
    cases pipe <;> exact hcut
  cases hchange with
  | cancel => rfl
  | register =>
    unfold State.started
    split
    · simp only [Call.isCut, Bool.or_eq_true, decide_eq_true_eq] at hcut ⊢
      rcases hcut with hcancelled | hdeadline
      · exact .inl hcancelled
      · rw [hfresh rfl] at hdeadline
        exact .inr (Nat.le_trans (Nat.min_le_right _ _) hdeadline)
    · exact hcut
  | read pipe => exact hpipe _ pipe
  | eof pipe => exact hpipe _ pipe
  | readFails pipe => exact hpipe _ pipe
  | cut pipe => exact hpipe _ pipe
  | _ => exact hcut

/-! ### What is left of a call -/

/-- What holds of a call's group, whatever else happens. -/
structure Contained (s : State) (k : Nat) (h : Holding) : Prop where
  /-- Nothing of it lives once the call killed it, and none will. -/
  quiet : h.stage = .closing ∨ h.stage = .released ∨
    (∃ call, s.calls[k]? = some call ∧ call.wait.isKilled = true) → s.custody.table.Quiet k
  /-- A signal to it reaches nobody else, unless nothing of the call is left. -/
  own : ∀ q ∈ s.custody.table.processes, q.group = h.pid → q.holder = some k ∨
    h.status ≠ none ∧ ∀ p ∈ s.custody.table.processes, p.holder ≠ some k
  /-- `cancel_processes` finds it, unless a call that ended had its number. -/
  listed : h.IsListed → h.pid ∈ s.custody.registry ∨
    ∃ (j : Nat) (g : Holding), s.custody.holdings[j]? = some g ∧ g.stage = .released ∧
      g.pid = h.pid
  /-- The registry has its number only while a call with that number is there. -/
  entered : h.pid ∈ s.custody.registry →
    ∃ (j : Nat) (g : Holding), s.custody.holdings[j]? = some g ∧ g.IsListed ∧ g.pid = h.pid

/-- In every run of any number of calls, whatever their processes do. -/
theorem calls_contained (seconds : Json → Except String Nat) (config : Config) :
    ∀ s, (system seconds config).Reachable s →
      ∀ (k : Nat) (h : Holding), s.custody.holdings[k]? = some h → Contained s k h := by
  intro s hs k h hget
  have hsound := sound s hs
  refine ⟨fun hover => ?_, fun q hq hgroup => hsound.custody.own hget hq hgroup,
    hsound.custody.registered.listed k h hget, hsound.custody.registered.entered h.pid⟩
  rcases hover with hstage | hstage | ⟨call, hcall, hkilled⟩
  · exact hsound.custody.contained hget (.inl hstage)
  · exact hsound.custody.contained hget (.inr hstage)
  · exact (hsound.calls k call h hcall hget).killed hkilled

def testConfig : Config := ⟨10, 4, 1000⟩

def listInput : Json := .object [("command", .string "ls")]

def noSeconds (_ : Json) : Except String Nat := .error "invalid timeout"

/-- A call whose shell forks, one of the two leaving, and whose future is dropped. -/
def droppedRun : List Label :=
  [.spawn listInput 100 7, .register 0, .outside (.fork 7 8), .outside (.fork 7 9),
    .outside (.leave 9), .drop 0, .remove 0]

theorem run_dropped : ∃ s,
    (system noSeconds testConfig).run (system noSeconds testConfig).init droppedRun = some s ∧
      s.custody.holdings[0]? = some ⟨7, .released, none⟩ ∧
      s.custody.table.processes.map Groups.Process.status = [some none, some none, none] :=
  ⟨_, rfl, rfl, rfl⟩

theorem calls_contained_dropped : ∃ s,
    (system noSeconds testConfig).run (system noSeconds testConfig).init droppedRun = some s ∧
      s.custody.table.Quiet 0 := by
  obtain ⟨s, hrun, hget, -⟩ := run_dropped
  have h := calls_contained noSeconds testConfig s (LTS.System.reachable_of_run hrun) 0 _ hget
  exact ⟨s, hrun, h.quiet (.inr (.inl rfl))⟩

/-! ### Emergencies -/

theorem number_run {ls : List Label} (hget : s.custody.holdings[k]? = some h)
    (hrun : (system seconds config).run s ls = some t) :
    ∃ f, t.custody.holdings[k]? = some f ∧ f.pid = h.pid := by
  refine LTS.System.run_invariant (system seconds config)
    (P := fun t => ∃ f, t.custody.holdings[k]? = some f ∧ f.pid = h.pid) ?_ ⟨h, hget, rfl⟩ hrun
  rintro s l t ⟨f, hf, hpid⟩ hstep
  rcases custody_step (moves hstep) with heq | ⟨a, hact⟩
  · exact ⟨f, heq ▸ hf, hpid⟩
  · obtain ⟨-, g, hg, hsame, -⟩ := Custody.stage_step (Custody.moves hact) hf
    exact ⟨g, hg, hsame.trans hpid⟩

theorem quiet_run {ls : List Label} (hquiet : s.custody.table.Quiet k)
    (hlt : k < s.custody.holdings.length)
    (hrun : (system seconds config).run s ls = some t) : t.custody.table.Quiet k := by
  have hkeep : t.custody.table.Quiet k ∧ k < t.custody.holdings.length := by
    refine LTS.System.run_invariant (system seconds config)
      (P := fun t => t.custody.table.Quiet k ∧ k < t.custody.holdings.length) ?_
      ⟨hquiet, hlt⟩ hrun
    intro s l t h hstep
    rcases custody_step (moves hstep) with heq | ⟨a, hact⟩
    · exact heq ▸ h
    · exact Custody.quiet_step h.1 h.2 (Custody.moves hact)
  exact hkeep.1

/-- `cancel_processes` goes through the registry while processes come and go. Where
    no two calls had one number, it ends all that calls have started by then. -/
theorem cancelProcesses_ends {ls : List Label} (hs : (system seconds config).Reachable s)
    (hnodup : (s.custody.holdings.map Holding.pid).Nodup)
    (hrun : (system seconds config).run s ls = some t)
    (hall : ∀ group ∈ s.custody.registry, Label.cancelProcesses group ∈ ls)
    (hget : s.custody.holdings[k]? = some h) (hstage : h.stage ≠ .started) :
    t.custody.table.Quiet k := by
  have hlt := (List.getElem?_eq_some_iff.mp hget).1
  have hsound := sound s hs
  have hdone : h.stage = .released ∨ h.IsListed := by
    unfold Holding.IsListed
    cases hnow : h.stage with
    | started => exact absurd hnow hstage
    | registered => exact .inr (.inl rfl)
    | closing => exact .inr (.inr rfl)
    | released => exact .inl rfl
  rcases hdone with hreleased | hlisted
  · exact quiet_run (hsound.custody.contained hget (.inr hreleased)) hlt hrun
  · have hmem := (hsound.custody.registry_iff hnodup hget).mpr hlisted
    obtain ⟨before, after, rfl⟩ := List.append_of_mem (hall h.pid hmem)
    obtain ⟨s₁, hbefore, hrest⟩ := (LTS.System.run_append _).mp hrun
    obtain ⟨s₂, hstrike, hafter⟩ := (LTS.System.run_cons _).mp hrest
    obtain ⟨f, hf, hpid⟩ := number_run hget hbefore
    obtain ⟨custody, hact, rfl⟩ := act_eq_some hstrike
    rw [← hpid] at hact
    have hreachable := LTS.System.Reachable.run hs hbefore
    refine quiet_run ((sound s₁ hreachable).custody.struck hf hact) ?_ hafter
    obtain ⟨-, g, hg, -⟩ := Custody.stage_step (Custody.moves hact) hf
    exact (List.getElem?_eq_some_iff.mp hg).1

/-- Two calls in an emergency. -/
def twoRun : List Label :=
  [.spawn listInput 100 7, .register 0, .spawn listInput 100 8, .register 1]

theorem run_two : ∃ s t,
    (system noSeconds testConfig).run (system noSeconds testConfig).init twoRun = some s ∧
      (system noSeconds testConfig).run s [.cancelProcesses 7, .cancelProcesses 8] = some t ∧
      s.custody.holdings = [⟨7, .registered, none⟩, ⟨8, .registered, none⟩] ∧
      s.custody.registry = [7, 8] :=
  ⟨_, _, rfl, rfl, rfl, rfl⟩

theorem cancelProcesses_ends_two : ∃ s t,
    (system noSeconds testConfig).run (system noSeconds testConfig).init twoRun = some s ∧
      (system noSeconds testConfig).run s [.cancelProcesses 7, .cancelProcesses 8] = some t ∧
      t.custody.table.Quiet 1 := by
  obtain ⟨s, t, hs, ht, hholdings, hregistry⟩ := run_two
  have hget : s.custody.holdings[1]? = some ⟨8, .registered, none⟩ := by rw [hholdings]; rfl
  have hnodup : (s.custody.holdings.map Holding.pid).Nodup := by rw [hholdings]; decide
  refine ⟨s, t, hs, ht, cancelProcesses_ends (LTS.System.reachable_of_run hs) hnodup ht
    (fun group hgroup => ?_) hget Groups.Stage.noConfusion⟩
  rw [hregistry] at hgroup
  simp only [List.mem_cons, List.not_mem_nil, or_false] at hgroup
  rcases hgroup with rfl | rfl <;> simp

end

end Kyora.Shell
