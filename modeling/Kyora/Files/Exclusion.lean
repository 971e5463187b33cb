import Kyora.Files.Leases

/-! # One edit of a name at a time

  The lock of a call is the registry's lock of the inode it looked up, for as long
  as its name refers to that inode. This is what keeps two edits of a name apart
  from the second look at the inode to the rename. It fails in one way: a new file
  gets a number that a call on the same name has looked up earlier, when that
  number was another file's, and leased another lock for.
-/

namespace Kyora.Files

namespace Phase

/-- The identity that a call works with and the lock it leases for it. -/
def claim? : Phase → Option (Inode × LockId)
  | .leased identity lock | .locked identity lock | .validated identity lock
  | .edited identity lock _ _ _ | .publishing identity lock _ _ _ => some (identity, lock)
  | _ => none

/-- The identity of a call between its second look and its rename. -/
def critical? : Phase → Option Inode
  | .validated identity _ | .edited identity _ _ _ _ | .publishing identity _ _ _ _ =>
    some identity
  | _ => none

/-- The lock that a call is about to publish. -/
def pending? : Phase → Option LockId
  | .renamed lock _ => some lock
  | _ => none

end Phase

/-- The name whose inode is about to be published, and its lock. -/
def State.pending? (cfg : Config) (s : State) : Option (String × LockId) :=
  s.registryGuard.bind fun c =>
    (s.phases c).pending?.map fun lock => ((cfg.request c).name, lock)

/-- The lock that a lookup in the registry finds, once it is free. -/
def State.lockOf (cfg : Config) (s : State) (identity : Inode) : Option LockId :=
  match s.pending? cfg with
  | some (name, lock) =>
    if s.dir.get? name = some identity then some lock else s.registry identity
  | none => s.registry identity

/-! ### Conditions on a step -/

/-- The name that a step replaces. -/
def renames? (cfg : Config) (s : State) (c : Nat) : Option String :=
  match cfg.request c, s.phases c with
  | .edit name _, .publishing _ _ _ _ _ => some name
  | .write name _, .ready => some name
  | _, _ => none

/-- The lock that the registry will have for a new file. -/
def lockAfter (cfg : Config) (s : State) (l : Label) : Option LockId :=
  match s.phases l.call with
  | .publishing _ lock _ _ _ => some lock
  | _ =>
    -- A write leaves the registry alone, but an edit may be about to publish.
    match s.pending? cfg with
    | some (name, lock) =>
      if name = (cfg.request l.call).name then some lock else s.registry l.fresh
    | none => s.registry l.fresh

/-- A new file does not get a number that a call on the same name has leased another
    lock for. -/
def Unclaimed (cfg : Config) (s : State) (l : Label) : Prop :=
  ∀ name, renames? cfg s l.call = some name → ∀ c lock, (cfg.request c).name = name →
    (s.phases c).claim? = some (l.fresh, lock) → lockAfter cfg s l = some lock

/-- No write replaces a name while an edit of the name is between its second look
    and its rename. -/
def Unwatched (cfg : Config) (s : State) (l : Label) : Prop :=
  ∀ name content, cfg.request l.call = .write name content →
    ∀ c, (cfg.request c).name = name → (s.phases c).critical? = none

/-! ### The invariant -/

structure Exclusive (cfg : Config) (s : State) : Prop where
  current : ∀ c identity lock, (s.phases c).claim? = some (identity, lock) →
    s.dir.get? (cfg.request c).name = some identity → s.lockOf cfg identity = some lock
  critical : ∀ c identity, (s.phases c).critical? = some identity →
    s.dir.get? (cfg.request c).name = some identity
  /-- No other name has the inode that is about to be published. -/
  alone : ∀ name lock, s.pending? cfg = some (name, lock) → ∀ identity other,
    s.dir.get? name = some identity → s.dir.get? other = some identity → other = name

variable {cfg : Config} {s t : State} {c : Nat}

/-- Two edits of a name are not both between their second look and their rename. -/
theorem Exclusive.apart (h : Exclusive cfg s) (haccounts : Accounts s) {c d : Nat} {i j : Inode}
    (hc : (s.phases c).critical? = some i) (hd : (s.phases d).critical? = some j)
    (hname : (cfg.request c).name = (cfg.request d).name) : c = d := by
  have hown : ∀ {c : Nat} {i : Inode}, (s.phases c).critical? = some i →
      ∃ lock, (s.phases c).claim? = some (i, lock) ∧ (s.phases c).guard? = some lock := by
    intro c i hcritical
    cases hp : s.phases c <;> rw [hp] at hcritical <;> cases hcritical <;>
      exact ⟨_, rfl, rfl⟩
  have hi := h.critical c i hc
  have hj := h.critical d j hd
  -- Both have the identity of the name, so both have its lock.
  obtain rfl : i = j := Option.some.inj (hi.symm.trans (hname ▸ hj))
  obtain ⟨lock, hclaim, hguard⟩ := hown hc
  obtain ⟨lock', hclaim', hguard'⟩ := hown hd
  have hlock := h.current c i lock hclaim hi
  have hlock' := h.current d i lock' hclaim' hj
  obtain rfl := Option.some.inj (hlock.symm.trans hlock')
  have hholder := haccounts.guards c lock hguard
  exact Option.some.inj (hholder.symm.trans (haccounts.guards d lock hguard'))

theorem Exclusive.init : Exclusive cfg (init cfg) where
  current _ _ _ h := by cases h
  critical _ _ h := by cases h
  alone _ _ h := by cases h

/-! ### What is about to be published -/

theorem pending_eq_some {name : String} {lock : LockId} :
    s.pending? cfg = some (name, lock) ↔
      ∃ c, s.registryGuard = some c ∧ (s.phases c).pending? = some lock ∧
        (cfg.request c).name = name := by
  unfold State.pending?
  simp only [Option.bind_eq_some_iff, Option.map_eq_some_iff, Prod.mk.injEq]
  constructor
  · rintro ⟨c, hguard, lock, hlock, hname, rfl⟩
    exact ⟨c, hguard, hlock, hname⟩
  · rintro ⟨c, hguard, hlock, hname⟩
    exact ⟨c, hguard, lock, hlock, hname, rfl⟩

theorem pending_of_free (h : s.registryGuard = none) : s.pending? cfg = none := by
  unfold State.pending?
  rw [h]
  rfl

/-- A move that neither begins nor ends a publication. -/
theorem pending_update {phase : Phase} (hphases : t.phases = Function.update s.phases c phase)
    (hguard : t.registryGuard = s.registryGuard)
    (hphase : phase.pending? = (s.phases c).pending?) : t.pending? cfg = s.pending? cfg := by
  unfold State.pending?
  rw [hguard]
  congr 1
  funext d
  rw [hphases]
  by_cases hd : d = c
  · rw [hd, Function.update_self, hphase]
  · rw [Function.update_of_ne hd]

theorem lockOf_of_none (h : s.pending? cfg = none) (i : Inode) :
    s.lockOf cfg i = s.registry i := by
  unfold State.lockOf
  rw [h]

theorem lockOf_of_free (h : s.registryGuard = none) (i : Inode) :
    s.lockOf cfg i = s.registry i := lockOf_of_none (pending_of_free h) i

theorem lockOf_of_some {name : String} {lock : LockId} (h : s.pending? cfg = some (name, lock))
    (i : Inode) :
    s.lockOf cfg i = if s.dir.get? name = some i then some lock else s.registry i := by
  unfold State.lockOf
  rw [h]

theorem lockOf_congr (hdir : t.dir = s.dir) (hregistry : t.registry = s.registry)
    (hpending : t.pending? cfg = s.pending? cfg) : t.lockOf cfg = s.lockOf cfg := by
  funext i
  unfold State.lockOf
  rw [hdir, hregistry, hpending]

/-! ### Moves -/

/-- A move that leaves the directory alone and keeps the locks that others claim. -/
theorem Exclusive.move (h : Exclusive cfg s) {phase : Phase}
    (hphases : t.phases = Function.update s.phases c phase) (hdir : t.dir = s.dir)
    (hlocks : ∀ d i lock, d ≠ c → (s.phases d).claim? = some (i, lock) →
      s.lockOf cfg i = some lock → t.lockOf cfg i = some lock)
    (hclaim : ∀ i lock, phase.claim? = some (i, lock) →
      s.dir.get? (cfg.request c).name = some i → t.lockOf cfg i = some lock)
    (hcritical : ∀ i, phase.critical? = some i → s.dir.get? (cfg.request c).name = some i)
    (hpending : ∀ x, t.pending? cfg = some x → s.pending? cfg = some x) :
    Exclusive cfg t := by
  refine ⟨?_, ?_, ?_⟩
  · intro d i lock hd hget
    rw [hphases] at hd
    rw [hdir] at hget
    by_cases hdc : d = c
    · subst hdc
      rw [Function.update_self] at hd
      exact hclaim i lock hd hget
    · rw [Function.update_of_ne hdc] at hd
      exact hlocks d i lock hdc hd (h.current d i lock hd hget)
  · intro d i hd
    rw [hphases] at hd
    rw [hdir]
    by_cases hdc : d = c
    · subst hdc
      rw [Function.update_self] at hd
      exact hcritical i hd
    · rw [Function.update_of_ne hdc] at hd
      exact h.critical d i hd
  · intro name lock hname i other
    rw [hdir]
    exact h.alone name lock (hpending _ hname) i other

/-- A move that changes neither the directory nor the registry. -/
theorem Exclusive.quiet (h : Exclusive cfg s) {phase : Phase}
    (hphases : t.phases = Function.update s.phases c phase) (hdir : t.dir = s.dir)
    (hregistry : t.registry = s.registry) (hguard : t.registryGuard = s.registryGuard)
    (hclaim : phase.claim? = none ∨ phase.claim? = (s.phases c).claim?)
    (hcritical : ∀ i, phase.critical? = some i → s.dir.get? (cfg.request c).name = some i)
    (hpending : phase.pending? = (s.phases c).pending?) :
    Exclusive cfg t := by
  have hsame : t.pending? cfg = s.pending? cfg := pending_update hphases hguard hpending
  have hlock := lockOf_congr hdir hregistry hsame
  refine h.move hphases hdir ?_ ?_ hcritical ?_
  · intro d i lock _ _ hold
    rw [hlock]
    exact hold
  · intro i lock hnew hget
    rw [hlock]
    rcases hclaim with hnone | hold
    · rw [hnone] at hnew
      cases hnew
    · exact h.current c i lock (hold ▸ hnew) hget
  · intro x hx
    rw [← hsame]
    exact hx

/-- A new file under a name. -/
theorem Exclusive.replaced (h : Exclusive cfg s) {phase : Phase} {fresh : Inode}
    (hphases : t.phases = Function.update s.phases c phase)
    (hdir : t.dir = s.dir.insert (cfg.request c).name fresh) (hregistry : t.registry = s.registry)
    (hclaim : phase.claim? = none) (hcritical : phase.critical? = none)
    (hfresh : fresh ∉ s.dir.values)
    (hunwatched : ∀ d, d ≠ c → (cfg.request d).name = (cfg.request c).name →
      (s.phases d).critical? = none)
    (hunclaimed : ∀ d lock, (cfg.request d).name = (cfg.request c).name →
      (s.phases d).claim? = some (fresh, lock) → t.lockOf cfg fresh = some lock)
    (hpending : t.pending? cfg = s.pending? cfg ∨
      (s.pending? cfg = none ∧ ∃ lock, t.pending? cfg = some ((cfg.request c).name, lock))) :
    Exclusive cfg t := by
  have hnew : ∀ name, s.dir.get? name ≠ some fresh := by
    intro name hget
    exact hfresh (SortedMap.mem_values_iff.mpr ⟨name, hget⟩)
  have hself : t.dir.get? (cfg.request c).name = some fresh := by
    rw [hdir, SortedMap.get?_insert, if_pos rfl]
  have hother : ∀ {name : String}, name ≠ (cfg.request c).name →
      t.dir.get? name = s.dir.get? name := by
    intro name hne
    rw [hdir, SortedMap.get?_insert, if_neg hne]
  -- The inode of another name keeps its lock.
  have hlock : ∀ {name : String} {i : Inode}, name ≠ (cfg.request c).name →
      s.dir.get? name = some i → t.lockOf cfg i = s.lockOf cfg i := by
    intro name i hne hget
    have hi : ¬ t.dir.get? (cfg.request c).name = some i := by
      rw [hself]
      intro heq
      exact hnew name (hget.trans heq.symm)
    rcases hpending with hsame | ⟨hnone, lock, hsome⟩
    · cases hs : s.pending? cfg with
      | none => rw [lockOf_of_none (hsame.trans hs), lockOf_of_none hs, hregistry]
      | some x =>
        obtain ⟨published, lock⟩ := x
        rw [lockOf_of_some (hsame.trans hs), lockOf_of_some hs, hregistry]
        by_cases hp : published = (cfg.request c).name
        · have hold : ¬ s.dir.get? published = some i := by
            intro hpub
            exact hne ((h.alone published lock hs i name hpub hget).trans hp)
          rw [if_neg hold, if_neg (hp ▸ hi)]
        · rw [hother hp]
    · rw [lockOf_of_some hsome, if_neg hi, lockOf_of_none hnone, hregistry]
  refine ⟨?_, ?_, ?_⟩
  · intro d i lock hd hget
    rw [hphases] at hd
    by_cases hdc : d = c
    · rw [hdc, Function.update_self, hclaim] at hd
      cases hd
    · rw [Function.update_of_ne hdc] at hd
      by_cases hname : (cfg.request d).name = (cfg.request c).name
      · obtain rfl := Option.some.inj (hself.symm.trans (hname ▸ hget))
        exact hunclaimed d lock hname hd
      · rw [hother hname] at hget
        rw [hlock hname hget]
        exact h.current d i lock hd hget
  · intro d i hd
    rw [hphases] at hd
    by_cases hdc : d = c
    · rw [hdc, Function.update_self, hcritical] at hd
      cases hd
    · rw [Function.update_of_ne hdc] at hd
      by_cases hname : (cfg.request d).name = (cfg.request c).name
      · rw [hunwatched d hdc hname] at hd
        cases hd
      · rw [hother hname]
        exact h.critical d i hd
  · intro name lock hname i other hget hget'
    by_cases hn : name = (cfg.request c).name
    · subst hn
      obtain rfl := Option.some.inj (hself.symm.trans hget)
      by_contra hne
      exact hnew other (hother hne ▸ hget')
    · have hs : s.pending? cfg = some (name, lock) := by
        rcases hpending with hsame | ⟨-, lock', hsome⟩
        · exact hsame ▸ hname
        · exact absurd (Prod.mk.inj (Option.some.inj (hname.symm.trans hsome))).1 hn
      rw [hother hn] at hget
      by_cases ho : other = (cfg.request c).name
      · subst ho
        obtain rfl := Option.some.inj (hself.symm.trans hget')
        exact absurd hget (hnew name)
      · rw [hother ho] at hget'
        exact h.alone name lock hs i other hget hget'

/-! ### Steps -/

theorem Exclusive.acquire {identity : Inode} (h : Exclusive cfg s) (haccounts : Accounts s)
    (hfree : s.registryGuard = none) :
    Exclusive cfg (s.acquire c identity) := by
  obtain ⟨lock, next, heq, hold⟩ := acquire_spec haccounts c identity
  rw [heq]
  refine h.move rfl rfl ?_ ?_ (fun i hi => by cases hi) ?_
  · intro d i other _ _ hlock
    rw [lockOf_of_free hfree] at hlock
    rw [lockOf_of_free (by exact hfree)]
    show Function.update s.registry identity (some lock) i = some other
    by_cases hi : i = identity
    · subst hi
      rw [Function.update_self, hold other hlock]
    · rw [Function.update_of_ne hi, hlock]
  · intro i other hclaim _
    cases hclaim
    rw [lockOf_of_free (by exact hfree)]
    exact Function.update_self ..
  · intro x hx
    rw [pending_of_free (by exact hfree)] at hx
    cases hx

theorem Exclusive.release {lock : LockId} {next : Option Report} (h : Exclusive cfg s)
    (haccounts : Accounts s) (hphase : s.phases c = .unlocked lock next)
    (hfree : s.registryGuard = none) :
    Exclusive cfg ((s.release c).setPhase c (next.elim .ready .finished)) := by
  have hnothing : (next.elim Phase.ready Phase.finished).claim? = none ∧
      (next.elim Phase.ready Phase.finished).critical? = none := by
    cases next <;> exact ⟨rfl, rfl⟩
  refine h.move rfl rfl ?_ ?_ ?_ ?_
  · intro d i other hd hclaim hlock
    rw [lockOf_of_free hfree] at hlock
    rw [lockOf_of_free (by exact hfree)]
    -- The lock of another call is still alive.
    refine Option.filter_eq_some_iff.mpr ⟨hlock, ?_⟩
    have hlease : (s.phases d).lock? = some other := by
      cases hp : s.phases d <;> rw [hp] at hclaim <;> cases hclaim <;> rfl
    refine isLive_iff.mpr ⟨d, List.mem_filter.mpr ⟨(haccounts.leases d other).mpr hlease, ?_⟩⟩
    exact bne_iff_ne.mpr hd
  · intro i other hclaim
    rw [hnothing.1] at hclaim
    cases hclaim
  · intro i hcritical
    rw [hnothing.2] at hcritical
    cases hcritical
  · intro x hx
    rw [pending_of_free (by exact hfree)] at hx
    cases hx

/-- The end of a publication: the registry has what was about to be published. -/
theorem Exclusive.publish {current : Inode} {lock : LockId} {message : String}
    (h : Exclusive cfg s) (haccounts : Accounts s) (hphase : s.phases c = .renamed lock message)
    (hdir : s.dir.get? (cfg.request c).name = some current) :
    Exclusive cfg
      ({ s with
        registry := Function.update s.registry current (some lock)
        registryGuard := none }.setPhase c (.leaving lock (some (.ok message)))) := by
  have hpending : s.pending? cfg = some ((cfg.request c).name, lock) :=
    pending_eq_some.mpr ⟨c, haccounts.registryGuard c (by rw [hphase]; rfl),
      by rw [hphase]; rfl, rfl⟩
  refine h.move rfl rfl ?_ (fun i other hclaim => by cases hclaim) (fun i hi => by cases hi) ?_
  · intro d i other _ _ hlock
    rw [lockOf_of_some hpending, hdir] at hlock
    rw [lockOf_of_free rfl]
    show Function.update s.registry current (some lock) i = some other
    by_cases hi : i = current
    · subst hi
      rw [if_pos rfl] at hlock
      rw [Function.update_self, hlock]
    · have hne : ¬ some current = some i := fun heq => hi (Option.some.inj heq).symm
      rw [if_neg hne] at hlock
      rw [Function.update_of_ne hi, hlock]
  · intro x hx
    rw [pending_of_free rfl] at hx
    cases hx

/-- The rename of an edit. -/
theorem Exclusive.rename {fresh identity : Inode} {lock : LockId} {read replaced : Bytes}
    {name message : String} {input : Json} (h : Exclusive cfg s) (haccounts : Accounts s)
    (hrequest : cfg.request c = .edit name input)
    (hphase : s.phases c = .publishing identity lock read replaced message)
    (hfresh : fresh ∉ s.dir.values) (hunclaimed : Unclaimed cfg s ⟨c, fresh⟩) :
    Exclusive cfg
      ((s.replace name fresh ⟨c, some read, replaced⟩).setPhase c (.renamed lock message)) := by
  have hname : (cfg.request c).name = name := by rw [hrequest]; rfl
  have hguard := haccounts.registryGuard c (by rw [hphase]; rfl)
  have hbefore : s.pending? cfg = none := by
    unfold State.pending?
    rw [hguard]
    show (s.phases c).pending?.map _ = none
    rw [hphase]
    rfl
  have hafter : ((s.replace name fresh ⟨c, some read, replaced⟩).setPhase c
      (.renamed lock message)).pending? cfg = some ((cfg.request c).name, lock) :=
    pending_eq_some.mpr ⟨c, hguard, by rw [setPhase_self]; rfl, rfl⟩
  refine h.replaced rfl (hname ▸ rfl) rfl rfl rfl hfresh ?_ ?_ (.inr ⟨hbefore, lock, hafter⟩)
  · intro d hd hsame
    cases hcritical : (s.phases d).critical? with
    | none => rfl
    | some i =>
      have hown : (s.phases c).critical? = some identity := by rw [hphase]; rfl
      exact absurd (h.apart haccounts hcritical hown hsame) hd
  · intro d other hsame hclaim
    have hlock := hunclaimed name (by unfold renames?; rw [hrequest, hphase]) d other
      (hsame.trans hname) hclaim
    have hkept : lockAfter cfg s ⟨c, fresh⟩ = some lock := by
      unfold lockAfter
      rw [hphase]
    obtain rfl := Option.some.inj (hkept.symm.trans hlock)
    rw [lockOf_of_some hafter, hname]
    show (if (s.dir.insert name fresh).get? name = some fresh then _ else _) = _
    rw [SortedMap.get?_insert, if_pos rfl, if_pos rfl]

theorem Exclusive.write {fresh : Inode} {name : String} {content : Bytes} {rename : Rename}
    (h : Exclusive cfg s) (hrequest : cfg.request c = .write name content)
    (hphase : s.phases c = .ready) (hfresh : fresh ∉ s.dir.values)
    (hunclaimed : Unclaimed cfg s ⟨c, fresh⟩) (hunwatched : Unwatched cfg s ⟨c, fresh⟩) :
    Exclusive cfg
      ((s.replace name fresh rename).setPhase c (.finished (written content))) := by
  have hname : (cfg.request c).name = name := by rw [hrequest]; rfl
  have hsame : ((s.replace name fresh rename).setPhase c
      (.finished (written content))).pending? cfg = s.pending? cfg :=
    pending_update rfl rfl (by rw [hphase]; rfl)
  refine h.replaced rfl (hname ▸ rfl) rfl rfl rfl hfresh ?_ ?_ (.inl hsame)
  · intro d _ hd
    exact hunwatched name content hrequest d (hd.trans hname)
  · intro d other hd hclaim
    have hlock := hunclaimed name (by unfold renames?; rw [hrequest, hphase]) d other
      (hd.trans hname) hclaim
    unfold lockAfter at hlock
    rw [hphase] at hlock
    cases hs : s.pending? cfg with
    | none =>
      rw [lockOf_of_none (hsame.trans hs)]
      simp only [hs] at hlock
      exact hlock
    | some x =>
      obtain ⟨published, lock⟩ := x
      rw [lockOf_of_some (hsame.trans hs)]
      simp only [hs] at hlock
      show (if (s.dir.insert name fresh).get? published = some fresh then some lock
        else s.registry fresh) = some other
      by_cases hp : published = (cfg.request c).name
      · rw [if_pos hp] at hlock
        rw [SortedMap.get?_insert, if_pos (hp.trans hname), if_pos rfl]
        exact hlock
      · rw [if_neg hp] at hlock
        have hold : ¬ s.dir.get? published = some fresh := by
          intro hget
          exact hfresh (SortedMap.mem_values_iff.mpr ⟨published, hget⟩)
        have hne : ¬ published = name := fun heq => hp (heq.trans hname.symm)
        rw [SortedMap.get?_insert, if_neg hne, if_neg hold]
        exact hlock

theorem Exclusive.edits {fresh : Inode} {name : String} {input : Json} (h : Exclusive cfg s)
    (haccounts : Accounts s) (hrequest : cfg.request c = .edit name input)
    (hunclaimed : Unclaimed cfg s ⟨c, fresh⟩) (hstep : Edits s c fresh name input t) :
    Exclusive cfg t := by
  have hname : (cfg.request c).name = name := by rw [hrequest]; rfl
  cases hstep with
  | absent hphase | identify hphase | vanish hphase | stale hphase | lose hphase | refuse hphase
  | unlock hphase =>
    exact h.quiet rfl rfl rfl rfl (.inl rfl) (fun i hi => by cases hi) (by rw [hphase]; rfl)
  | lock hphase hfree =>
    exact h.quiet rfl rfl rfl rfl (.inr (by rw [hphase]; rfl)) (fun i hi => by cases hi)
      (by rw [hphase]; rfl)
  | validate hphase hdir =>
    refine h.quiet rfl rfl rfl rfl (.inr (by rw [hphase]; rfl)) ?_ (by rw [hphase]; rfl)
    intro i hi
    cases hi
    rw [hname]
    exact hdir
  | @read identity lock read replaced message hphase hfile hedit =>
    refine h.quiet rfl rfl rfl rfl (.inr (by rw [hphase]; rfl)) ?_ (by rw [hphase]; rfl)
    intro i hi
    exact h.critical c i (by rw [hphase]; exact hi)
  | acquire hphase hfree => exact h.acquire haccounts hfree
  | @enter identity lock read replaced message hphase hfree =>
    have hbefore : s.pending? cfg = none := pending_of_free hfree
    have hafter : ({ s with registryGuard := some c }.setPhase c
        (.publishing identity lock read replaced message)).pending? cfg = none := by
      show ((Function.update s.phases c _ c).pending?).map _ = none
      rw [Function.update_self]
      rfl
    refine h.move rfl rfl ?_ ?_ ?_ (fun x hx => by rw [hafter] at hx; cases hx)
    · intro d i other _ _ hlock
      rw [lockOf_of_none hbefore] at hlock
      rw [lockOf_of_none hafter]
      exact hlock
    · intro i other hclaim hget
      have hlock := h.current c i other (by rw [hphase]; exact hclaim) hget
      rw [lockOf_of_none hbefore] at hlock
      rw [lockOf_of_none hafter]
      exact hlock
    · intro i hi
      exact h.critical c i (by rw [hphase]; exact hi)
  | rename hphase hfresh => exact h.rename haccounts hrequest hphase hfresh hunclaimed
  | @withdraw lock message hphase hdir =>
    have hpending : s.pending? cfg = some ((cfg.request c).name, lock) :=
      pending_eq_some.mpr ⟨c, haccounts.registryGuard c (by rw [hphase]; rfl),
        by rw [hphase]; rfl, rfl⟩
    refine h.move rfl rfl ?_ (fun i other hclaim => by cases hclaim) (fun i hi => by cases hi) ?_
    · intro d i other _ _ hlock
      rw [lockOf_of_some hpending, hname, hdir, if_neg (fun h => by cases h)] at hlock
      rw [lockOf_of_free rfl]
      exact hlock
    · intro x hx
      rw [pending_of_free rfl] at hx
      cases hx
  | publish hphase hdir => exact h.publish haccounts hphase (hname ▸ hdir)
  | release hphase hfree => exact h.release haccounts hphase hfree

end Kyora.Files
