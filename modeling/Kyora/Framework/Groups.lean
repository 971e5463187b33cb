import Kyora.Framework.Pool
import Mathlib.Data.List.Nodup

/-! # Process groups

  The processes of an operating system with their groups, as a program sees them
  that starts a process in a group of its own and later kills the group. A new
  process takes a number that no process and no group has at that moment, so a
  number is handed out again once the process with it was reaped and its group
  is empty. A process stays in the group it was started in unless it leaves for
  one of its own.

  * `Table`: the processes, with what the numbers guarantee.
  * `Event`, `Table.act`: what processes do and what is done to them.
  * `Table.Quiet`: no process of a holder lives in its group; this lasts.
  * `Table.kill_own`: a kill that reaches a holder's process reaches no other's.
-/

namespace Groups

/-- How a process ended: its exit code, unless a signal ended it. -/
abbrev ExitStatus := Option Nat

structure Process where
  pid : Nat
  group : Nat
  /-- Who started the group it is in. -/
  holder : Option Nat
  /-- A process that ended waits to be reaped. -/
  status : Option ExitStatus
  deriving DecidableEq, Repr

/-- A process of this kind ends, unless it has. -/
def Process.stopIf (test : Process → Bool) (status : ExitStatus) (p : Process) : Process :=
  { p with status := if test p then p.status.or (some status) else p.status }

/-- The process with this number goes to a group of its own. -/
def Process.leaveAs (pid : Nat) (p : Process) : Process :=
  if p.pid = pid then { p with group := pid, holder := none } else p

theorem Process.leaveAs_self {pid : Nat} {p : Process} (h : p.pid = pid) :
    p.leaveAs pid = { p with group := pid, holder := none } := if_pos h

theorem Process.leaveAs_ne {pid : Nat} {p : Process} (h : p.pid ≠ pid) : p.leaveAs pid = p :=
  if_neg h

@[simp] theorem Process.leaveAs_pid (pid : Nat) (p : Process) : (p.leaveAs pid).pid = p.pid := by
  unfold Process.leaveAs
  split <;> rfl

/-- A number that no process and no group has. -/
def Unused (processes : List Process) (pid : Nat) : Prop :=
  ∀ p ∈ processes, p.pid ≠ pid ∧ p.group ≠ pid

instance (processes : List Process) (pid : Nat) : Decidable (Unused processes pid) :=
  inferInstanceAs (Decidable (∀ p ∈ processes, p.pid ≠ pid ∧ p.group ≠ pid))

/-- The processes that are not reaped. -/
structure Table where
  processes : List Process
  pids : processes.Pairwise fun p q => p.pid ≠ q.pid
  /-- The process a group is named after is in it. -/
  named : ∀ p ∈ processes, ∀ q ∈ processes, q.group = p.pid → p.group = p.pid
  /-- A group has one holder. -/
  same : ∀ p ∈ processes, ∀ q ∈ processes, p.group = q.group → p.holder = q.holder

namespace Table

def empty : Table where
  processes := []
  pids := List.Pairwise.nil
  named := by
    intro p hp
    cases hp
  same := by
    intro p hp
    cases hp

def find (t : Table) (pid : Nat) : Option Process := t.processes.find? fun p => p.pid == pid

/-- A process joins with an unused number, in its own group or in that of a
    process whose holder it shares. -/
def add (t : Table) (child : Process) (hunused : Unused t.processes child.pid)
    (hgroup : child.group = child.pid ∨
      ∃ p ∈ t.processes, child.group = p.group ∧ child.holder = p.holder) : Table where
  processes := t.processes ++ [child]
  pids := by
    rw [List.pairwise_append]
    refine ⟨t.pids, List.pairwise_singleton _ _, fun p hp q hq => ?_⟩
    rw [List.mem_singleton.mp hq]
    exact (hunused p hp).1
  named := by
    intro p hp q hq hnamed
    rw [List.mem_append, List.mem_singleton] at hp hq
    rcases hp with hp | rfl
    · rcases hq with hq | rfl
      · exact t.named p hp q hq hnamed
      · rcases hgroup with hown | ⟨parent, hparent, hshared, -⟩
        · exact absurd (hown.symm.trans hnamed).symm (hunused p hp).1
        · exact t.named p hp parent hparent (hshared.symm.trans hnamed)
    · rcases hq with hq | rfl
      · exact absurd hnamed (hunused q hq).2
      · exact hnamed
  same := by
    intro p hp q hq hsame
    rw [List.mem_append, List.mem_singleton] at hp hq
    rcases hp with hp | rfl
    · rcases hq with hq | rfl
      · exact t.same p hp q hq hsame
      · rcases hgroup with hown | ⟨parent, hparent, hshared, hholder⟩
        · exact absurd (hsame.trans hown) (hunused p hp).2
        · exact (t.same p hp parent hparent (hsame.trans hshared)).trans hholder.symm
    · rcases hq with hq | rfl
      · rcases hgroup with hown | ⟨parent, hparent, hshared, hholder⟩
        · exact absurd (hsame.symm.trans hown) (hunused q hq).2
        · exact hholder.trans (t.same parent hparent q hq (hshared.symm.trans hsame))
      · rfl

/-- Some processes end, unless they have. -/
def stop (t : Table) (test : Process → Bool) (status : ExitStatus) : Table where
  processes := t.processes.map (Process.stopIf test status)
  pids := List.Pairwise.map _ (fun _ _ hne => hne) t.pids
  named := by
    intro p hp q hq
    obtain ⟨r, hr, rfl⟩ := List.mem_map.mp hp
    obtain ⟨u, hu, rfl⟩ := List.mem_map.mp hq
    exact t.named r hr u hu
  same := by
    intro p hp q hq
    obtain ⟨r, hr, rfl⟩ := List.mem_map.mp hp
    obtain ⟨u, hu, rfl⟩ := List.mem_map.mp hq
    exact t.same r hr u hu

/-- The processes that are left with their numbers. -/
def keep (t : Table) (test : Process → Bool) : Table where
  processes := t.processes.filter test
  pids := t.pids.filter _
  named := fun p hp q hq => t.named p (List.mem_of_mem_filter hp) q (List.mem_of_mem_filter hq)
  same := fun p hp q hq => t.same p (List.mem_of_mem_filter hp) q (List.mem_of_mem_filter hq)

/-- A process that is not named by its group leaves it for one of its own, which
    nobody started here. -/
def leave (t : Table) (pid : Nat) (hgroup : ∀ p ∈ t.processes, p.pid = pid → p.group ≠ pid) :
    Table where
  processes := t.processes.map (Process.leaveAs pid)
  pids := by
    refine List.Pairwise.map _ (fun p q hne => ?_) t.pids
    rw [Process.leaveAs_pid, Process.leaveAs_pid]
    exact hne
  named := by
    intro p hp q hq hnamed
    obtain ⟨r, hr, rfl⟩ := List.mem_map.mp hp
    obtain ⟨u, hu, rfl⟩ := List.mem_map.mp hq
    rw [Process.leaveAs_pid] at hnamed ⊢
    by_cases hrid : r.pid = pid
    · rw [Process.leaveAs_self hrid]
      exact hrid.symm
    · rw [Process.leaveAs_ne hrid]
      by_cases huid : u.pid = pid
      · rw [Process.leaveAs_self huid] at hnamed
        exact absurd hnamed.symm hrid
      · rw [Process.leaveAs_ne huid] at hnamed
        exact t.named r hr u hu hnamed
  same := by
    -- Nobody is in the group that the process leaves for.
    have hempty : ∀ r ∈ t.processes, ∀ u ∈ t.processes, r.pid = pid → u.group ≠ pid := by
      intro r hr u hu hrid hjoined
      exact hgroup r hr hrid (hrid ▸ t.named r hr u hu (hjoined.trans hrid.symm))
    intro p hp q hq hsame
    obtain ⟨r, hr, rfl⟩ := List.mem_map.mp hp
    obtain ⟨u, hu, rfl⟩ := List.mem_map.mp hq
    by_cases hrid : r.pid = pid
    · by_cases huid : u.pid = pid
      · rw [Process.leaveAs_self hrid, Process.leaveAs_self huid]
      · rw [Process.leaveAs_self hrid, Process.leaveAs_ne huid] at hsame
        exact absurd hsame.symm (hempty r hr u hu hrid)
    · by_cases huid : u.pid = pid
      · rw [Process.leaveAs_ne hrid, Process.leaveAs_self huid] at hsame
        exact absurd hsame (hempty u hu r hr huid)
      · rw [Process.leaveAs_ne hrid, Process.leaveAs_ne huid] at hsame ⊢
        exact t.same r hr u hu hsame

end Table

/-! ### What happens to processes -/

inductive Event where
  /-- A process starts in a group of its own, for a holder or for none. -/
  | lead (pid : Nat) (holder : Option Nat)
  | fork (parent pid : Nat)
  | leave (pid : Nat)
  | exit (pid code : Nat)
  /-- `SIGKILL` for a group. -/
  | kill (group : Nat)
  | reap (pid : Nat)
  deriving DecidableEq, Repr

/-- The table after an event that can happen. A process is killed before it can
    fork or leave again. -/
def Table.act (t : Table) : Event → Option Table
  | .lead pid holder =>
    if h : Unused t.processes pid then some (t.add ⟨pid, pid, holder, none⟩ h (.inl rfl)) else none
  | .fork parent pid =>
    if h : Unused t.processes pid then
      match hparent : t.find parent with
      | some p =>
        if p.status = none then
          some (t.add ⟨pid, p.group, p.holder, none⟩ h
            (.inr ⟨p, List.mem_of_find?_eq_some hparent, rfl, rfl⟩))
        else none
      | none => none
    else none
  | .leave pid =>
    if h : ∀ p ∈ t.processes, p.pid = pid → p.group ≠ pid then
      match t.find pid with
      | some p => if p.status = none then some (t.leave pid h) else none
      | none => none
    else none
  | .exit pid code => some (t.stop (fun p => p.pid == pid) (some code))
  | .kill group => some (t.stop (fun p => p.group == group) none)
  | .reap pid => some (t.keep fun p => p.pid != pid || p.status.isNone)

/-- Where a process of the table after an event comes from. -/
inductive Comes (t : Table) (e : Event) (q : Process) : Prop where
  | stayed (p : Process) (hp : p ∈ t.processes) (pid : q.pid = p.pid) (group : q.group = p.group)
      (holder : q.holder = p.holder) (living : q.status = none → p.status = none)
  | left (holder : q.holder = none)
  | forked (p : Process) (hp : p ∈ t.processes) (living : p.status = none)
      (group : q.group = p.group) (holder : q.holder = p.holder)
  | led (hlead : e = .lead q.pid q.holder) (group : q.group = q.pid)

section

variable {t u : Table} {e : Event} {holder group pid : Nat} {q : Process}

theorem Process.stopIf_living {test : Process → Bool} {status : ExitStatus} {p : Process}
    (h : (p.stopIf test status).status = none) : p.status = none ∧ test p = false := by
  unfold Process.stopIf at h
  dsimp only at h
  split at h
  · simp at h
  · next htest => exact ⟨h, Bool.eq_false_iff.mpr htest⟩

theorem stayed_refl {p : Process} (hp : p ∈ t.processes) : Comes t e p :=
  .stayed p hp rfl rfl rfl id

theorem comes_stop {test : Process → Bool} {status : ExitStatus}
    (hq : q ∈ (t.stop test status).processes) : Comes t e q := by
  obtain ⟨p, hp, rfl⟩ := List.mem_map.mp hq
  exact .stayed p hp rfl rfl rfl fun h => (Process.stopIf_living h).1

/-- A process that is there after an event was there before, or is new. -/
theorem comes (hact : t.act e = some u) (hq : q ∈ u.processes) : Comes t e q := by
  cases e with
  | lead pid holder =>
    simp only [Table.act, Option.dite_none_right_eq_some, Option.some.injEq] at hact
    obtain ⟨hunused, rfl⟩ := hact
    rcases List.mem_append.mp hq with hq | hq
    · exact stayed_refl hq
    · rw [List.mem_singleton.mp hq]
      exact .led rfl rfl
  | fork parent pid =>
    simp only [Table.act, Option.dite_none_right_eq_some] at hact
    obtain ⟨hunused, hact⟩ := hact
    split at hact
    · next p hparent =>
      simp only [Option.ite_none_right_eq_some, Option.some.injEq] at hact
      obtain ⟨hliving, rfl⟩ := hact
      rcases List.mem_append.mp hq with hq | hq
      · exact stayed_refl hq
      · rw [List.mem_singleton.mp hq]
        exact .forked p (List.mem_of_find?_eq_some hparent) hliving rfl rfl
    · cases hact
  | leave pid =>
    simp only [Table.act, Option.dite_none_right_eq_some] at hact
    obtain ⟨hgroup, hact⟩ := hact
    split at hact
    · simp only [Option.ite_none_right_eq_some, Option.some.injEq] at hact
      obtain ⟨-, rfl⟩ := hact
      obtain ⟨p, hp, rfl⟩ := List.mem_map.mp hq
      by_cases hpid : p.pid = pid
      · rw [Process.leaveAs_self hpid]
        exact .left rfl
      · rw [Process.leaveAs_ne hpid]
        exact stayed_refl hp
    · cases hact
  | exit pid code =>
    obtain rfl := Option.some.inj hact
    exact comes_stop hq
  | kill group =>
    obtain rfl := Option.some.inj hact
    exact comes_stop hq
  | reap pid =>
    obtain rfl := Option.some.inj hact
    exact stayed_refl (List.mem_of_mem_filter hq)

/-! ### What holds of a group -/

/-- No process of a holder lives in its group. -/
def Table.Quiet (t : Table) (holder : Nat) : Prop :=
  ∀ p ∈ t.processes, p.holder = some holder → p.status ≠ none

/-- The processes of a holder are in one group. -/
def Table.Within (t : Table) (holder group : Nat) : Prop :=
  ∀ p ∈ t.processes, p.holder = some holder → p.group = group

/-- The process that a holder's group is named after is not reaped. -/
def Table.Leads (t : Table) (holder pid : Nat) : Prop :=
  ∃ p ∈ t.processes, p.pid = pid ∧ p.group = pid ∧ p.holder = some holder

/-- Only these holders have processes. -/
def Table.Known (t : Table) (count : Nat) : Prop :=
  ∀ p ∈ t.processes, ∀ holder, p.holder = some holder → holder < count

/-- Once no process of a holder lives, none will: only a living one forks. -/
theorem Table.Quiet.act (h : t.Quiet holder) (hact : t.act e = some u)
    (hlead : ∀ pid, e ≠ .lead pid (some holder)) : u.Quiet holder := by
  intro q hq hholder hstatus
  cases comes hact hq with
  | stayed p hp _ _ hsame hliving => exact h p hp (hsame ▸ hholder) (hliving hstatus)
  | left hnone => rw [hnone] at hholder; cases hholder
  | forked p hp hliving _ hsame => exact h p hp (hsame ▸ hholder) hliving
  | led hstart _ => exact hlead q.pid (hholder ▸ hstart)

theorem Table.Within.act (h : t.Within holder group) (hact : t.act e = some u)
    (hlead : ∀ pid, e = .lead pid (some holder) → pid = group) : u.Within holder group := by
  intro q hq hholder
  cases comes hact hq with
  | stayed p hp _ hgroup hsame _ => exact hgroup.trans (h p hp (hsame ▸ hholder))
  | left hnone => rw [hnone] at hholder; cases hholder
  | forked p hp _ hgroup hsame => exact hgroup.trans (h p hp (hsame ▸ hholder))
  | led hstart hgroup => exact hgroup.trans (hlead q.pid (hholder ▸ hstart))

theorem Table.Known.act {count : Nat} (h : t.Known count) (hact : t.act e = some u)
    (hlead : ∀ pid holder, e = .lead pid (some holder) → holder < count) : u.Known count := by
  intro q hq holder hholder
  cases comes hact hq with
  | stayed p hp _ _ hsame _ => exact h p hp holder (hsame ▸ hholder)
  | left hnone => rw [hnone] at hholder; cases hholder
  | forked p hp _ _ hsame => exact h p hp holder (hsame ▸ hholder)
  | led hstart _ => exact hlead q.pid holder (hholder ▸ hstart)

/-- Only reaping takes away the process a group is named after. -/
theorem Table.Leads.act (h : t.Leads holder pid) (hact : t.act e = some u) (hreap : e ≠ .reap pid) :
    u.Leads holder pid := by
  obtain ⟨p, hp, hpid, hgroup, hholder⟩ := h
  cases e with
  | lead new holder' =>
    simp only [Table.act, Option.dite_none_right_eq_some, Option.some.injEq] at hact
    obtain ⟨hunused, rfl⟩ := hact
    exact ⟨p, List.mem_append_left _ hp, hpid, hgroup, hholder⟩
  | fork parent new =>
    simp only [Table.act, Option.dite_none_right_eq_some] at hact
    obtain ⟨hunused, hact⟩ := hact
    split at hact
    · simp only [Option.ite_none_right_eq_some, Option.some.injEq] at hact
      obtain ⟨-, rfl⟩ := hact
      exact ⟨p, List.mem_append_left _ hp, hpid, hgroup, hholder⟩
    · cases hact
  | leave gone =>
    simp only [Table.act, Option.dite_none_right_eq_some] at hact
    obtain ⟨hleave, hact⟩ := hact
    split at hact
    · simp only [Option.ite_none_right_eq_some, Option.some.injEq] at hact
      obtain ⟨-, rfl⟩ := hact
      have hne : p.pid ≠ gone := fun heq => hleave p hp heq (hgroup.trans (hpid.symm.trans heq))
      refine ⟨p, List.mem_map.mpr ⟨p, hp, Process.leaveAs_ne hne⟩, hpid, hgroup, hholder⟩
    · cases hact
  | exit gone code =>
    obtain rfl := Option.some.inj hact
    exact ⟨_, List.mem_map_of_mem hp, hpid, hgroup, hholder⟩
  | kill killed =>
    obtain rfl := Option.some.inj hact
    exact ⟨_, List.mem_map_of_mem hp, hpid, hgroup, hholder⟩
  | reap gone =>
    obtain rfl := Option.some.inj hact
    have hne : p.pid ≠ gone := fun heq => hreap (congrArg Event.reap (heq.symm.trans hpid))
    exact ⟨p, List.mem_filter.mpr ⟨hp, by simp [hne]⟩, hpid, hgroup, hholder⟩

/-- A kill leaves no process of a holder in the group alive. -/
theorem Table.Within.kill (h : t.Within holder group) (hact : t.act (.kill group) = some u) :
    u.Quiet holder := by
  obtain rfl := Option.some.inj hact
  intro q hq hholder hstatus
  obtain ⟨p, hp, rfl⟩ := List.mem_map.mp hq
  have hother := (Process.stopIf_living hstatus).2
  rw [h p hp hholder, beq_self_eq_true] at hother
  cases hother

/-- Numbers are unique. -/
theorem Table.eq_of_pid {p : Process} (hp : p ∈ t.processes) (hq : q ∈ t.processes)
    (hpid : p.pid = q.pid) : p = q := by
  have hnodup : (t.processes.map Process.pid).Nodup := List.pairwise_map.mpr t.pids
  exact List.inj_on_of_nodup_map hnodup hp hq hpid

/-- The process that leads a quiet group can be reaped. -/
theorem Table.Leads.ended (h : t.Leads holder pid) (hquiet : t.Quiet holder) :
    ∃ status, (t.find pid).bind Process.status = some status := by
  obtain ⟨p, hp, hpid, -, hholder⟩ := h
  have hfind : t.find pid = some p := by
    unfold Table.find
    obtain ⟨q, hq⟩ := Option.isSome_iff_exists.mp
      (List.find?_isSome.mpr ⟨p, hp, beq_iff_eq.mpr hpid⟩ :
        (t.processes.find? fun r => r.pid == pid).isSome)
    have htest := List.find?_some hq
    have hqpid : q.pid = pid := beq_iff_eq.mp htest
    rw [hq, Table.eq_of_pid (List.mem_of_find?_eq_some hq) hp (hqpid.trans hpid.symm)]
  obtain ⟨status, hstatus⟩ := Option.ne_none_iff_exists'.mp (hquiet p hp hholder)
  exact ⟨status, by rw [hfind]; exact hstatus⟩

/-- While one process of a holder is not reaped, a kill of its group reaches no
    other's. -/
theorem Table.kill_own (h : t.Within holder group) {p q : Process} (hp : p ∈ t.processes)
    (hholder : p.holder = some holder) (hq : q ∈ t.processes) (hgroup : q.group = group) :
    q.holder = some holder := by
  have hsame := t.same p hp q hq ((h p hp hholder).trans hgroup.symm)
  exact hsame.symm.trans hholder

end

end Groups
