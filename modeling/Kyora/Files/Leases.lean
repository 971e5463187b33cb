import Kyora.Files.Concurrent

/-! # Leases, locks and the registry

  In every run, whatever the inode numbers: a call leases the lock it works with,
  a taken lock is known as taken by the call that took it, and the registry only
  has locks that some call leases. So the registry is empty when no call is in
  progress.
-/

namespace Kyora.Files

/-! ### What a phase has -/

namespace Phase

/-- The lock that a call leases. -/
def lock? : Phase → Option LockId
  | .leased _ lock | .locked _ lock | .validated _ lock | .edited _ lock _ _ _
  | .publishing _ lock _ _ _ | .renamed lock _ | .leaving lock _ | .unlocked lock _ => some lock
  | _ => none

/-- The lock that a call has taken. -/
def guard? : Phase → Option LockId
  | .locked _ lock | .validated _ lock | .edited _ lock _ _ _ | .publishing _ lock _ _ _
  | .renamed lock _ | .leaving lock _ => some lock
  | _ => none

/-- Whether a call has taken the registry. -/
def hasRegistry : Phase → Bool
  | .publishing _ _ _ _ _ | .renamed _ _ => true
  | _ => false

/-- Whether a call has neither started nor returned. -/
def inProgress : Phase → Bool
  | .ready | .finished _ => false
  | _ => true

end Phase

section SetPhase

variable (s : State) (c : Nat) (phase : Phase)

@[simp] theorem setPhase_dir : (s.setPhase c phase).dir = s.dir := rfl

@[simp] theorem setPhase_contents : (s.setPhase c phase).contents = s.contents := rfl

@[simp] theorem setPhase_registry : (s.setPhase c phase).registry = s.registry := rfl

@[simp] theorem setPhase_leases : (s.setPhase c phase).leases = s.leases := rfl

@[simp] theorem setPhase_guards : (s.setPhase c phase).guards = s.guards := rfl

@[simp] theorem setPhase_registryGuard :
    (s.setPhase c phase).registryGuard = s.registryGuard := rfl

@[simp] theorem setPhase_renames : (s.setPhase c phase).renames = s.renames := rfl

@[simp] theorem setPhase_file : (s.setPhase c phase).file = s.file := rfl

@[simp] theorem setPhase_self : (s.setPhase c phase).phases c = phase :=
  Function.update_self ..

variable {s c phase} in
theorem setPhase_of_ne {d : Nat} (h : d ≠ c) : (s.setPhase c phase).phases d = s.phases d :=
  Function.update_of_ne h ..

end SetPhase

/-! ### The accounts -/

structure Accounts (s : State) : Prop where
  leases : ∀ c lock, (c, lock) ∈ s.leases ↔ (s.phases c).lock? = some lock
  guards : ∀ c lock, (s.phases c).guard? = some lock → s.guards lock = some c
  registryGuard : ∀ c, (s.phases c).hasRegistry = true → s.registryGuard = some c
  live : ∀ identity lock, s.registry identity = some lock → State.isLive s.leases lock = true

theorem isLive_iff {leases : List (Nat × LockId)} {lock : LockId} :
    State.isLive leases lock = true ↔ ∃ c, (c, lock) ∈ leases := by
  unfold State.isLive
  rw [List.any_eq_true]
  constructor
  · rintro ⟨⟨c, lock'⟩, hmem, heq⟩
    obtain rfl := beq_iff_eq.mp heq
    exact ⟨c, hmem⟩
  · rintro ⟨c, hmem⟩
    exact ⟨(c, lock), hmem, beq_self_eq_true lock⟩

/-- The registry after an insertion. -/
theorem registry_insert {registry : Inode → Option LockId} {identity i : Inode}
    {lock other : LockId} (h : Function.update registry identity (some lock) i = some other) :
    (i = identity ∧ other = lock) ∨ (i ≠ identity ∧ registry i = some other) := by
  by_cases hi : i = identity
  · subst hi
    rw [Function.update_self] at h
    exact .inl ⟨rfl, (Option.some.inj h).symm⟩
  · rw [Function.update_of_ne hi] at h
    exact .inr ⟨hi, h⟩

variable {cfg : Config} {s t : State} {c : Nat}

theorem Accounts.init : Accounts (init cfg) where
  leases _ _ := ⟨fun h => absurd h List.not_mem_nil, fun h => by cases h⟩
  guards _ _ h := by cases h
  registryGuard _ h := by cases h
  live _ _ h := by cases h

/-- One call moves. Its own accounts are right after it, those of the others stay. -/
theorem Accounts.moved (h : Accounts s) {phase : Phase} (hphases : t.phases = s.phases)
    (hlease : ∀ lock, (c, lock) ∈ t.leases ↔ phase.lock? = some lock)
    (hleases : ∀ d lock, d ≠ c → ((d, lock) ∈ t.leases ↔ (d, lock) ∈ s.leases))
    (hguard : ∀ lock, phase.guard? = some lock → t.guards lock = some c)
    (hguards : ∀ d lock, d ≠ c → (s.phases d).guard? = some lock → t.guards lock = some d)
    (hregistry : phase.hasRegistry = true → t.registryGuard = some c)
    (hregistries : ∀ d, d ≠ c → (s.phases d).hasRegistry = true → t.registryGuard = some d)
    (hlive : ∀ identity lock, t.registry identity = some lock →
      State.isLive t.leases lock = true) :
    Accounts (t.setPhase c phase) := by
  have hother : ∀ d, d ≠ c → (t.setPhase c phase).phases d = s.phases d := by
    intro d hd
    rw [setPhase_of_ne hd, hphases]
  refine ⟨?_, ?_, ?_, hlive⟩
  · intro d lock
    by_cases hd : d = c
    · subst hd
      rw [setPhase_self]
      exact hlease lock
    · rw [hother d hd]
      exact (hleases d lock hd).trans (h.leases d lock)
  · intro d lock hhas
    by_cases hd : d = c
    · subst hd
      rw [setPhase_self] at hhas
      exact hguard lock hhas
    · rw [hother d hd] at hhas
      exact hguards d lock hd hhas
  · intro d hhas
    by_cases hd : d = c
    · subst hd
      rw [setPhase_self] at hhas
      exact hregistry hhas
    · rw [hother d hd] at hhas
      exact hregistries d hd hhas

/-- A call that goes on with what it has. -/
theorem Accounts.keep (h : Accounts s) {phase : Phase}
    (hlock : phase.lock? = (s.phases c).lock?) (hguard : phase.guard? = (s.phases c).guard?)
    (hregistry : phase.hasRegistry = (s.phases c).hasRegistry) :
    Accounts (s.setPhase c phase) := by
  refine h.moved rfl ?_ (fun _ _ _ => Iff.rfl) ?_ (fun d lock _ => h.guards d lock) ?_
    (fun d _ => h.registryGuard d) h.live
  · intro lock
    rw [hlock]
    exact h.leases c lock
  · intro lock
    rw [hguard]
    exact h.guards c lock
  · rw [hregistry]
    exact h.registryGuard c

/-- A new file under a name changes no account. -/
theorem Accounts.replace (h : Accounts s) (name : String) (fresh : Inode) (rename : Rename) :
    Accounts (s.replace name fresh rename) := ⟨h.leases, h.guards, h.registryGuard, h.live⟩

/-- The lock of a new lease is the one that the registry has, if it has one. -/
theorem acquire_spec (h : Accounts s) (c : Nat) (identity : Inode) :
    ∃ lock next, s.acquire c identity =
        { s with
          registry := Function.update s.registry identity (some lock)
          nextLock := next
          leases := (c, lock) :: s.leases }.setPhase c (.leased identity lock) ∧
      ∀ other, s.registry identity = some other → other = lock := by
  unfold State.acquire
  cases hregistry : s.registry identity with
  | none => exact ⟨s.nextLock, s.nextLock + 1, rfl, fun _ hother => by cases hother⟩
  | some lock =>
    refine ⟨lock, s.nextLock, ?_, fun _ hother => (Option.some.inj hother).symm⟩
    have hupgrade : Option.filter (State.isLive s.leases) (some lock) = some lock := by
      rw [Option.filter_some, if_pos (h.live identity lock hregistry)]
    have hsame : Function.update s.registry identity (some lock) = s.registry := by
      rw [← hregistry]
      exact Function.update_eq_self identity s.registry
    rw [hupgrade, hsame]

theorem Accounts.acquire {identity : Inode} (h : Accounts s)
    (hphase : s.phases c = .identified identity) : Accounts (s.acquire c identity) := by
  obtain ⟨lock, next, heq, -⟩ := acquire_spec h c identity
  rw [heq]
  have hnone : ∀ lock', (c, lock') ∉ s.leases := by
    intro lock' hmem
    have hlock := (h.leases c lock').mp hmem
    rw [hphase] at hlock
    cases hlock
  refine h.moved rfl ?_ ?_ (fun _ hguard => by cases hguard) (fun d lock' _ => h.guards d lock')
    (fun hregistry => by cases hregistry) (fun d _ => h.registryGuard d) ?_
  · intro lock'
    rw [List.mem_cons]
    simp only [Prod.mk.injEq, true_and, hnone, or_false, Phase.lock?, Option.some.injEq]
    exact eq_comm
  · intro d lock' hd
    rw [List.mem_cons]
    simp only [Prod.mk.injEq, hd, false_and, false_or]
  · intro i lock' hlock'
    rw [isLive_iff]
    rcases registry_insert hlock' with ⟨-, rfl⟩ | ⟨-, hold⟩
    · exact ⟨c, List.mem_cons_self⟩
    · obtain ⟨d, hd⟩ := isLive_iff.mp (h.live i lock' hold)
      exact ⟨d, List.mem_cons_of_mem _ hd⟩

theorem Accounts.release {lock : LockId} {next : Option Report} (h : Accounts s)
    (hphase : s.phases c = .unlocked lock next) :
    Accounts ((s.release c).setPhase c (next.elim .ready .finished)) := by
  have hnothing : (next.elim Phase.ready Phase.finished).lock? = none ∧
      (next.elim Phase.ready Phase.finished).guard? = none ∧
      (next.elim Phase.ready Phase.finished).hasRegistry = false := by
    cases next <;> exact ⟨rfl, rfl, rfl⟩
  have hleases : ∀ d lock', (d, lock') ∈ (s.release c).leases ↔
      (d, lock') ∈ s.leases ∧ d ≠ c := by
    intro d lock'
    show (d, lock') ∈ s.leases.filter _ ↔ _
    rw [List.mem_filter]
    simp
  refine h.moved rfl ?_ ?_ ?_ (fun d lock' _ => h.guards d lock') ?_ (fun d _ => h.registryGuard d)
    ?_
  · intro lock'
    rw [hleases, hnothing.1]
    exact ⟨fun h => absurd rfl h.2, fun h => by cases h⟩
  · intro d lock' hd
    rw [hleases]
    exact and_iff_left hd
  · intro lock' hguard
    rw [hnothing.2.1] at hguard
    cases hguard
  · intro hregistry
    rw [hnothing.2.2] at hregistry
    cases hregistry
  · intro i lock' hlock'
    -- What the registry retains is alive.
    exact (Option.filter_eq_some_iff.mp hlock').2

/-- A call that takes or gives back a lock or the registry. -/
theorem Accounts.change (h : Accounts s) {phase : Phase} {guards : LockId → Option Nat}
    {registry : Inode → Option LockId} {registryGuard : Option Nat}
    (hlock : phase.lock? = (s.phases c).lock?)
    (hown : ∀ lock, phase.guard? = some lock → guards lock = some c)
    (hothers : ∀ d lock, d ≠ c → (s.phases d).guard? = some lock → guards lock = some d)
    (hregistry : phase.hasRegistry = true → registryGuard = some c)
    (hfree : registryGuard = s.registryGuard ∨ s.registryGuard = none ∨
      s.registryGuard = some c)
    (hlive : ∀ identity lock, registry identity = some lock →
      State.isLive s.leases lock = true) :
    Accounts ({ s with guards, registry, registryGuard }.setPhase c phase) := by
  refine h.moved rfl ?_ (fun _ _ _ => Iff.rfl) hown hothers hregistry ?_ hlive
  · intro lock
    rw [hlock]
    exact h.leases c lock
  · intro d hd hhas
    have hd' := h.registryGuard d hhas
    rcases hfree with hfree | hfree | hfree
    · exact hfree.trans hd'
    · rw [hd'] at hfree
      cases hfree
    · exact absurd (Option.some.inj (hd'.symm.trans hfree)) hd

theorem Accounts.edits {fresh : Inode} {name : String} {input : Json} (h : Accounts s)
    (hstep : Edits s c fresh name input t) : Accounts t := by
  cases hstep with
  | absent hphase | identify hphase | vanish hphase | stale hphase | validate hphase
  | lose hphase | refuse hphase | read hphase =>
    apply h.keep <;> rw [hphase] <;> rfl
  | acquire hphase hfree => exact h.acquire hphase
  | @lock identity lock hphase hfree =>
    refine h.change (by rw [hphase]; rfl) ?_ ?_ (fun hhas => by cases hhas) (.inl rfl) h.live
    · intro lock' hlock'
      obtain rfl := Option.some.inj hlock'
      exact Function.update_self ..
    · intro d lock' hd hguard
      have htaken := h.guards d lock' hguard
      have hne : lock' ≠ lock := by
        intro heq
        rw [heq, hfree] at htaken
        cases htaken
      exact (Function.update_of_ne hne ..).trans htaken
  | enter hphase hfree =>
    refine h.change (by rw [hphase]; rfl) ?_ (fun d lock _ => h.guards d lock) (fun _ => rfl)
      (.inr (.inl hfree)) h.live
    intro lock hlock
    exact h.guards c lock (by rw [hphase]; exact hlock)
  | rename hphase hfresh =>
    apply (h.replace ..).keep <;> exact hphase ▸ rfl
  | withdraw hphase hdir =>
    refine h.change (by rw [hphase]; rfl) ?_ (fun d lock _ => h.guards d lock)
      (fun hhas => by cases hhas) (.inr (.inr (h.registryGuard c (by rw [hphase]; rfl)))) h.live
    intro lock hlock
    exact h.guards c lock (by rw [hphase]; exact hlock)
  | @publish current lock message hphase hdir =>
    refine h.change (by rw [hphase]; rfl) ?_ (fun d lock _ => h.guards d lock)
      (fun hhas => by cases hhas) (.inr (.inr (h.registryGuard c (by rw [hphase]; rfl)))) ?_
    · intro lock hlock
      exact h.guards c lock (by rw [hphase]; exact hlock)
    · intro i lock' hlock'
      rcases registry_insert hlock' with ⟨-, rfl⟩ | ⟨-, hold⟩
      · exact isLive_iff.mpr ⟨c, (h.leases c lock').mpr (by rw [hphase]; rfl)⟩
      · exact h.live i lock' hold
  | @unlock lock next hphase =>
    refine h.change (by rw [hphase]; rfl) (fun _ hlock => by cases hlock) ?_
      (fun hhas => by cases hhas) (.inl rfl) h.live
    intro d lock' hd hguard
    have htaken := h.guards d lock' hguard
    have hne : lock' ≠ lock := by
      intro heq
      have hown := h.guards c lock (by rw [hphase]; rfl)
      rw [heq, hown] at htaken
      exact hd (Option.some.inj htaken).symm
    exact (Function.update_of_ne hne ..).trans htaken
  | release hphase hfree => exact h.release hphase

/-- The accounts hold in every run. -/
theorem Accounts.step {l : Label} (h : Accounts s) (hstep : step cfg s l = some t) :
    Accounts t := by
  rcases step_cases hstep with ⟨name, input, -, hedits⟩ | ⟨name, content, -, hphase, -, rfl⟩
  · exact h.edits hedits
  · apply (h.replace ..).keep <;> exact hphase ▸ rfl

/-- Without a call in progress the registry is empty. -/
theorem Accounts.registry_empty (h : Accounts s)
    (hidle : ∀ c, (s.phases c).inProgress = false) (identity : Inode) :
    s.registry identity = none := by
  by_contra hsome
  obtain ⟨lock, hlock⟩ := Option.ne_none_iff_exists'.mp hsome
  obtain ⟨c, hc⟩ := isLive_iff.mp (h.live identity lock hlock)
  have hlease := (h.leases c lock).mp hc
  have hphase := hidle c
  cases hp : s.phases c <;> rw [hp] at hlease hphase <;> cases hlease <;> cases hphase

end Kyora.Files
