import Kyora.Framework.Groups
import Kyora.Framework.System

/-! # Process groups in a program's hands

  A program starts processes in groups of their own, lists the groups in a
  registry that an emergency can read, waits for the processes it started and
  kills each group before it lets go of it. Everything else that happens to
  processes happens in between.

  * `Custody.system`: the program's acts between those of others.
  * `Custody.Sound`: what is true of each group it holds.
  * `Sound.contained`: a group that was let go of has no living process.
  * `Sound.own`: whom a signal to a group can reach.
-/

namespace Groups

/-! ### Acts -/

/-- How far a program is with a group it holds. -/
inductive Stage where
  | started
  | registered
  /-- Killed for the last time. -/
  | closing
  | released
  deriving DecidableEq, Repr

/-- A group that a program started. -/
structure Holding where
  pid : Nat
  stage : Stage
  /-- What waiting for its first process came to. -/
  status : Option ExitStatus
  deriving DecidableEq, Repr

/-- A group in the registry, from its entry to its removal. -/
def Holding.IsListed (h : Holding) : Prop :=
  h.stage = .registered ∨ h.stage = .closing

structure Custody where
  table : Table
  registry : List Nat
  holdings : List Holding

inductive Act where
  /-- What the program has no part in. -/
  | outside (e : Event)
  | start (pid : Nat)
  | register (k : Nat)
  | kill (k : Nat)
  /-- The process started is reaped. -/
  | wait (k : Nat)
  | close (k : Nat)
  | release (k : Nat)
  /-- A registered group is killed in an emergency. -/
  | strike (group : Nat)
  deriving DecidableEq, Repr

namespace Custody

/-- Others start processes without a holder here, and do not reap those that the
    program waits for. -/
def allows (c : Custody) : Event → Bool
  | .lead _ holder => holder.isNone
  | .reap pid => c.holdings.all fun h => h.pid != pid || h.status.isSome
  | _ => true

def put (c : Custody) (k : Nat) (h : Holding) : Custody :=
  { c with holdings := c.holdings.set k h }

/-- `insert` into a set. -/
def insert (pid : Nat) (registry : List Nat) : List Nat :=
  if pid ∈ registry then registry else registry ++ [pid]

/-- `remove` from a set. -/
def remove (pid : Nat) (registry : List Nat) : List Nat := registry.filter (· != pid)

def step (c : Custody) : Act → Option Custody
  | .outside e => if c.allows e then (c.table.act e).map fun table => { c with table } else none
  | .start pid =>
    (c.table.act (.lead pid (some c.holdings.length))).map fun table =>
      { c with table, holdings := c.holdings ++ [⟨pid, .started, none⟩] }
  | .register k => do
    let h ← c.holdings[k]?
    match h.stage with
    | .started =>
      some { c.put k { h with stage := .registered } with registry := insert h.pid c.registry }
    | _ => none
  | .kill k => do
    let h ← c.holdings[k]?
    match h.stage with
    | .registered => (c.table.act (.kill h.pid)).map fun table => { c with table }
    | _ => none
  | .wait k => do
    let h ← c.holdings[k]?
    match h.status, (c.table.find h.pid).bind Process.status with
    | none, some status =>
      (c.table.act (.reap h.pid)).map fun table =>
        { c.put k { h with status := some status } with table }
    | _, _ => none
  | .close k => do
    let h ← c.holdings[k]?
    match h.stage with
    | .registered =>
      (c.table.act (.kill h.pid)).map fun table =>
        { c.put k { h with stage := .closing } with table }
    | _ => none
  | .release k => do
    let h ← c.holdings[k]?
    match h.stage with
    | .closing =>
      some { c.put k { h with stage := .released } with registry := remove h.pid c.registry }
    | _ => none
  | .strike group =>
    if group ∈ c.registry then
      (c.table.act (.kill group)).map fun table => { c with table }
    else none

def system : LTS.System Custody Act where
  init := ⟨Table.empty, [], []⟩
  step := step

/-- What an act makes of a custody. -/
inductive Moves (c : Custody) : Act → Custody → Prop where
  | outside (e : Event) (table : Table) (hallows : c.allows e = true)
      (hact : c.table.act e = some table) : Moves c (.outside e) { c with table }
  | start (pid : Nat) (table : Table)
      (hact : c.table.act (.lead pid (some c.holdings.length)) = some table) :
      Moves c (.start pid)
        { c with table, holdings := c.holdings ++ [⟨pid, .started, none⟩] }
  | register (k : Nat) (h : Holding) (hget : c.holdings[k]? = some h)
      (hstage : h.stage = .started) : Moves c (.register k)
        { c.put k { h with stage := .registered } with registry := insert h.pid c.registry }
  | kill (k : Nat) (h : Holding) (table : Table) (hget : c.holdings[k]? = some h)
      (hstage : h.stage = .registered) (hact : c.table.act (.kill h.pid) = some table) :
      Moves c (.kill k) { c with table }
  | wait (k : Nat) (h : Holding) (status : ExitStatus) (table : Table)
      (hget : c.holdings[k]? = some h) (hstatus : h.status = none)
      (hfind : (c.table.find h.pid).bind Process.status = some status)
      (hact : c.table.act (.reap h.pid) = some table) :
      Moves c (.wait k) { c.put k { h with status := some status } with table }
  | close (k : Nat) (h : Holding) (table : Table) (hget : c.holdings[k]? = some h)
      (hstage : h.stage = .registered) (hact : c.table.act (.kill h.pid) = some table) :
      Moves c (.close k) { c.put k { h with stage := .closing } with table }
  | release (k : Nat) (h : Holding) (hget : c.holdings[k]? = some h) (hstage : h.stage = .closing) :
      Moves c (.release k)
        { c.put k { h with stage := .released } with registry := remove h.pid c.registry }
  | strike (group : Nat) (table : Table) (hlisted : group ∈ c.registry)
      (hact : c.table.act (.kill group) = some table) : Moves c (.strike group) { c with table }

section

variable {c d : Custody} {a : Act}

theorem moves (hstep : c.step a = some d) : Moves c a d := by
  cases a with
  | outside e =>
    simp only [step, Option.ite_none_right_eq_some, Option.map_eq_some_iff] at hstep
    obtain ⟨hallows, table, hact, rfl⟩ := hstep
    exact .outside e table hallows hact
  | start pid =>
    simp only [step, Option.map_eq_some_iff] at hstep
    obtain ⟨table, hact, rfl⟩ := hstep
    exact .start pid table hact
  | register k =>
    obtain ⟨h, hget, hnext⟩ := Option.bind_eq_some_iff.mp hstep
    split at hnext
    · next hstage =>
      obtain rfl := Option.some.inj hnext
      exact .register k h hget hstage
    · cases hnext
  | kill k =>
    obtain ⟨h, hget, hnext⟩ := Option.bind_eq_some_iff.mp hstep
    split at hnext
    · next hstage =>
      obtain ⟨table, hact, rfl⟩ := Option.map_eq_some_iff.mp hnext
      exact .kill k h table hget hstage hact
    · cases hnext
  | wait k =>
    obtain ⟨h, hget, hnext⟩ := Option.bind_eq_some_iff.mp hstep
    split at hnext
    · next status hstatus hfind =>
      obtain ⟨table, hact, rfl⟩ := Option.map_eq_some_iff.mp hnext
      exact .wait k h status table hget hstatus hfind hact
    · cases hnext
  | close k =>
    obtain ⟨h, hget, hnext⟩ := Option.bind_eq_some_iff.mp hstep
    split at hnext
    · next hstage =>
      obtain ⟨table, hact, rfl⟩ := Option.map_eq_some_iff.mp hnext
      exact .close k h table hget hstage hact
    · cases hnext
  | release k =>
    obtain ⟨h, hget, hnext⟩ := Option.bind_eq_some_iff.mp hstep
    split at hnext
    · next hstage =>
      obtain rfl := Option.some.inj hnext
      exact .release k h hget hstage
    · cases hnext
  | strike group =>
    simp only [step, Option.ite_none_right_eq_some, Option.map_eq_some_iff] at hstep
    obtain ⟨hlisted, table, hact, rfl⟩ := hstep
    exact .strike group table hlisted hact

/-! ### What is true of a holding -/

/-- What is true of the processes of one group. -/
structure Grouped (table : Table) (k : Nat) (h : Holding) : Prop where
  within : table.Within k h.pid
  leads : h.status = none → table.Leads k h.pid
  quiet : h.stage = .closing ∨ h.stage = .released → table.Quiet k

/-- What the registry holds. -/
structure Registered (registry : List Nat) (holdings : List Holding) : Prop where
  /-- A listed group is there, unless one that was let go of had its number. -/
  listed : ∀ (k : Nat) (h : Holding), holdings[k]? = some h → h.IsListed → h.pid ∈ registry ∨
    ∃ (j : Nat) (g : Holding), holdings[j]? = some g ∧ g.stage = .released ∧ g.pid = h.pid
  entered : ∀ pid ∈ registry,
    ∃ (k : Nat) (h : Holding), holdings[k]? = some h ∧ h.IsListed ∧ h.pid = pid

structure Sound (c : Custody) : Prop where
  known : c.table.Known c.holdings.length
  grouped : ∀ (k : Nat) (h : Holding), c.holdings[k]? = some h → Grouped c.table k h
  registered : Registered c.registry c.holdings

end

section

variable {c d : Custody} {a : Act} {table u : Table} {e : Event} {registry : List Nat}
  {holdings : List Holding} {k : Nat} {g h : Holding}

/-- An event that does not reap the group's first process keeps its facts. -/
theorem Grouped.act (hgroup : Grouped table k h) (hact : table.act e = some u)
    (hlead : ∀ pid, e ≠ .lead pid (some k)) (hreap : h.status = none → e ≠ .reap h.pid) :
    Grouped u k h where
  within := hgroup.within.act hact fun pid hstart => absurd hstart (hlead pid)
  leads := fun hnone => (hgroup.leads hnone).act hact (hreap hnone)
  quiet := fun hstage => (hgroup.quiet hstage).act hact hlead

/-- The process with a number is the one that leads its group, if one does. -/
theorem Leads.unique {i j pid : Nat} (hi : table.Leads i pid) (hj : table.Leads j pid) : i = j := by
  obtain ⟨p, hp, -, hpg, hpi⟩ := hi
  obtain ⟨q, hq, -, hqg, hqj⟩ := hj
  have hsame := table.same p hp q hq (hpg.trans hqg.symm)
  rw [hpi, hqj] at hsame
  exact Option.some.inj hsame

theorem mem_insert {pid r : Nat} : r ∈ insert pid registry ↔ r ∈ registry ∨ r = pid := by
  unfold insert
  split
  · next hmem =>
    refine ⟨.inl, fun hr => hr.elim id fun heq => heq ▸ hmem⟩
  · rw [List.mem_append, List.mem_singleton]

theorem mem_remove {pid r : Nat} : r ∈ remove pid registry ↔ r ∈ registry ∧ r ≠ pid := by
  unfold remove
  rw [List.mem_filter, bne_iff_ne]

theorem get_snoc (hget : holdings[k]? = some h) (g : Holding) :
    (holdings ++ [g])[k]? = some h := by
  rw [List.getElem?_append_left (List.getElem?_eq_some_iff.mp hget).1]
  exact hget

theorem get_set (hget : holdings[k]? = some h) (g : Holding) : (holdings.set k g)[k]? = some g :=
  List.getElem?_set_self (List.getElem?_eq_some_iff.mp hget).1

theorem get_set_ne {j : Nat} (hget : holdings[j]? = some h) (hne : k ≠ j) (g : Holding) :
    (holdings.set k g)[j]? = some h := by
  rw [List.getElem?_set_ne hne]
  exact hget

theorem lt_set {j : Nat} {f : Holding} (hlt : k < holdings.length) :
    k < (holdings.set j f).length := by
  rw [List.length_set]
  exact hlt

/-! ### The registry -/

theorem Registered.start (hreg : Registered registry holdings) (pid : Nat) :
    Registered registry (holdings ++ [⟨pid, .started, none⟩]) where
  listed := by
    intro k h hget hlisted
    rcases Pool.getElem?_snoc hget with hold | ⟨-, rfl⟩
    · rcases hreg.listed k h hold hlisted with hmem | ⟨j, g, hj, hreleased, hpid⟩
      · exact .inl hmem
      · exact .inr ⟨j, g, get_snoc hj _, hreleased, hpid⟩
    · rcases hlisted with hstage | hstage <;> cases hstage
  entered := by
    intro r hr
    obtain ⟨k, h, hget, hlisted, hpid⟩ := hreg.entered r hr
    exact ⟨k, h, get_snoc hget _, hlisted, hpid⟩

/-- A holding changes that the registry has, or one that was let go of. -/
theorem Registered.same (hreg : Registered registry holdings) (hget : holdings[k]? = some h)
    (hpid : g.pid = h.pid) (hlisted : g.IsListed ↔ h.IsListed)
    (hreleased : h.stage = .released → g.stage = .released) :
    Registered registry (holdings.set k g) where
  listed := by
    intro j f hj hf
    have hold : ∃ f', holdings[j]? = some f' ∧ f'.IsListed ∧ f'.pid = f.pid := by
      rcases Pool.getElem?_set_cases hget hj with ⟨-, hj'⟩ | ⟨rfl, rfl⟩
      · exact ⟨f, hj', hf, rfl⟩
      · exact ⟨h, hget, hlisted.mp hf, hpid.symm⟩
    obtain ⟨f', hj', hf', hsame⟩ := hold
    rw [← hsame]
    rcases hreg.listed j f' hj' hf' with hmem | ⟨i, l, hi, hgone, hnumber⟩
    · exact .inl hmem
    · right
      by_cases hik : k = i
      · subst hik
        obtain rfl : h = l := Option.some.inj (hget.symm.trans hi)
        exact ⟨k, g, get_set hget g, hreleased hgone, hpid.trans hnumber⟩
      · exact ⟨i, l, get_set_ne hi hik g, hgone, hnumber⟩
  entered := by
    intro r hr
    obtain ⟨i, l, hi, hl, hnumber⟩ := hreg.entered r hr
    by_cases hik : k = i
    · subst hik
      obtain rfl : h = l := Option.some.inj (hget.symm.trans hi)
      exact ⟨k, g, get_set hget g, hlisted.mpr hl, hpid.trans hnumber⟩
    · exact ⟨i, l, get_set_ne hi hik g, hl, hnumber⟩

theorem Registered.register (hreg : Registered registry holdings) (hget : holdings[k]? = some h)
    (hstage : h.stage = .started) :
    Registered (insert h.pid registry) (holdings.set k { h with stage := .registered }) where
  listed := by
    intro j f hj hf
    rcases Pool.getElem?_set_cases hget hj with ⟨-, hj'⟩ | ⟨rfl, rfl⟩
    · rcases hreg.listed j f hj' hf with hmem | ⟨i, l, hi, hgone, hnumber⟩
      · exact .inl (mem_insert.mpr (.inl hmem))
      · have hik : k ≠ i := by
          intro heq
          subst heq
          obtain rfl : h = l := Option.some.inj (hget.symm.trans hi)
          rw [hstage] at hgone
          cases hgone
        exact .inr ⟨i, l, get_set_ne hi hik _, hgone, hnumber⟩
    · exact .inl (mem_insert.mpr (.inr rfl))
  entered := by
    intro r hr
    rcases mem_insert.mp hr with hr | rfl
    · obtain ⟨i, l, hi, hl, hnumber⟩ := hreg.entered r hr
      have hik : k ≠ i := by
        intro heq
        subst heq
        obtain rfl : h = l := Option.some.inj (hget.symm.trans hi)
        rcases hl with hl | hl <;> rw [hstage] at hl <;> cases hl
      exact ⟨i, l, get_set_ne hi hik _, hl, hnumber⟩
    · exact ⟨k, _, get_set hget _, .inl rfl, rfl⟩

/-- Letting go of a group takes its number out, also where another has it. -/
theorem Registered.release (hreg : Registered registry holdings) (hget : holdings[k]? = some h) :
    Registered (remove h.pid registry) (holdings.set k { h with stage := .released }) where
  listed := by
    intro j f hj hf
    rcases Pool.getElem?_set_cases hget hj with ⟨-, hj'⟩ | ⟨rfl, rfl⟩
    · by_cases hnumber : f.pid = h.pid
      · exact .inr ⟨k, _, get_set hget _, rfl, hnumber.symm⟩
      · rcases hreg.listed j f hj' hf with hmem | ⟨i, l, hi, hgone, hsame⟩
        · exact .inl (mem_remove.mpr ⟨hmem, hnumber⟩)
        · have hik : k ≠ i := by
            intro heq
            subst heq
            obtain rfl : h = l := Option.some.inj (hget.symm.trans hi)
            exact hnumber hsame.symm
          exact .inr ⟨i, l, get_set_ne hi hik _, hgone, hsame⟩
    · rcases hf with hf | hf <;> cases hf
  entered := by
    intro r hr
    obtain ⟨hmem, hne⟩ := mem_remove.mp hr
    obtain ⟨i, l, hi, hl, hnumber⟩ := hreg.entered r hmem
    have hik : k ≠ i := by
      intro heq
      subst heq
      obtain rfl : h = l := Option.some.inj (hget.symm.trans hi)
      exact hne hnumber.symm
    exact ⟨i, l, get_set_ne hi hik _, hl, hnumber⟩

/-! ### The invariant -/

/-- An event that starts nothing for a holder and reaps none of the processes
    waited for keeps everything. -/
theorem Sound.act (hs : Sound c) (hact : c.table.act e = some u)
    (hlead : ∀ pid k, e ≠ .lead pid (some k))
    (hreap : ∀ (k : Nat) (h : Holding), c.holdings[k]? = some h → h.status = none →
      e ≠ .reap h.pid) : Sound { c with table := u } where
  known := hs.known.act hact fun pid k hstart => absurd hstart (hlead pid k)
  grouped := fun k h hget =>
    (hs.grouped k h hget).act hact (fun pid => hlead pid k) (hreap k h hget)
  registered := hs.registered

/-- The groups of a custody with one holding put again. -/
theorem grouped_set (hget : holdings[k]? = some h)
    (hother : ∀ (j : Nat) (f : Holding), k ≠ j → holdings[j]? = some f → Grouped table j f)
    (hself : Grouped table k g) :
    ∀ (j : Nat) (f : Holding), (holdings.set k g)[j]? = some f → Grouped table j f := by
  intro j f hj
  rcases Pool.getElem?_set_cases hget hj with ⟨hne, hj'⟩ | ⟨rfl, rfl⟩
  · exact hother j f hne hj'
  · exact hself

theorem sound_step (hs : Sound c) (hmove : Moves c a d) : Sound d := by
  cases hmove with
  | outside e table hallows hact =>
    refine hs.act hact ?_ ?_
    · intro pid k heq
      rw [heq] at hallows
      cases hallows
    · intro k h hget hstatus heq
      rw [heq] at hallows
      have hall := List.all_eq_true.mp hallows h (List.mem_of_getElem? hget)
      simp [hstatus] at hall
  | start pid table hact =>
    have hlt : c.holdings.length < c.holdings.length + 1 := Nat.lt_succ_self _
    refine ⟨?_, ?_, hs.registered.start pid⟩
    · show table.Known (c.holdings ++ [_]).length
      rw [List.length_append, List.length_singleton]
      refine Table.Known.act (fun p hp holder hholder => ?_) hact ?_
      · exact Nat.lt_trans (hs.known p hp holder hholder) hlt
      · intro pid' holder heq
        obtain ⟨-, hholder⟩ := Event.lead.inj heq
        rw [← Option.some.inj hholder]
        exact hlt
    · intro k h hget
      rcases Pool.getElem?_snoc hget with hold | ⟨rfl, rfl⟩
      · have hk : k < c.holdings.length := (List.getElem?_eq_some_iff.mp hold).1
        refine (hs.grouped k h hold).act hact ?_ fun _ => Event.noConfusion
        intro pid' heq
        obtain ⟨-, hholder⟩ := Event.lead.inj heq
        exact absurd (Option.some.inj hholder) (Nat.ne_of_gt hk)
      · refine ⟨?_, fun _ => ?_, ?_⟩
        · refine Table.Within.act (fun p hp hholder => ?_) hact ?_
          · exact absurd (hs.known p hp _ hholder) (Nat.lt_irrefl _)
          · intro pid' heq
            exact (Event.lead.inj heq).1.symm
        · simp only [Table.act, Option.dite_none_right_eq_some, Option.some.injEq] at hact
          obtain ⟨hunused, rfl⟩ := hact
          exact ⟨_, List.mem_append_right _ (List.mem_singleton_self _), rfl, rfl, rfl⟩
        · rintro (hstage | hstage) <;> cases hstage
  | register k h hget hstage =>
    have hg := hs.grouped k h hget
    refine ⟨?_, ?_, hs.registered.register hget hstage⟩
    · show c.table.Known (c.holdings.set k _).length
      rw [List.length_set]
      exact hs.known
    · refine grouped_set hget (fun j f _ hj => hs.grouped j f hj) ⟨hg.within, hg.leads, ?_⟩
      rintro (hlate | hlate) <;> cases hlate
  | kill k h table hget hstage hact =>
    exact hs.act hact (fun _ _ => Event.noConfusion) fun _ _ _ _ => Event.noConfusion
  | wait k h status table hget hstatus hfind hact =>
    have hg := hs.grouped k h hget
    refine ⟨?_, ?_, hs.registered.same hget rfl Iff.rfl id⟩
    · show table.Known (c.holdings.set k _).length
      rw [List.length_set]
      exact hs.known.act hact fun _ _ => Event.noConfusion
    · refine grouped_set hget (fun j f hne hj => ?_) ?_
      · refine (hs.grouped j f hj).act hact (fun _ => Event.noConfusion) fun hnone heq => ?_
        -- Two groups whose first processes are there have different numbers.
        have hpid : h.pid = f.pid := Event.reap.inj heq
        have hleads := (hs.grouped j f hj).leads hnone
        rw [← hpid] at hleads
        exact hne (Leads.unique (hg.leads hstatus) hleads)
      · refine ⟨hg.within.act hact fun _ => Event.noConfusion, ?_, fun hstage => ?_⟩
        · intro hnone
          cases hnone
        · exact (hg.quiet hstage).act hact fun _ => Event.noConfusion
  | close k h table hget hstage hact =>
    have hg := hs.grouped k h hget
    have hlisted : ({ h with stage := .closing } : Holding).IsListed ↔ h.IsListed :=
      ⟨fun _ => .inl hstage, fun _ => .inr rfl⟩
    refine ⟨?_, ?_, hs.registered.same hget rfl hlisted fun hlate => ?_⟩
    · show table.Known (c.holdings.set k _).length
      rw [List.length_set]
      exact hs.known.act hact fun _ _ => Event.noConfusion
    · refine grouped_set hget (fun j f _ hj => ?_) ?_
      · exact (hs.grouped j f hj).act hact (fun _ => Event.noConfusion) fun _ => Event.noConfusion
      · exact ⟨hg.within.act hact fun _ => Event.noConfusion,
          fun hnone => (hg.leads hnone).act hact Event.noConfusion, fun _ => hg.within.kill hact⟩
    · rw [hstage] at hlate
      cases hlate
  | release k h hget hstage =>
    have hg := hs.grouped k h hget
    refine ⟨?_, ?_, hs.registered.release hget⟩
    · show c.table.Known (c.holdings.set k _).length
      rw [List.length_set]
      exact hs.known
    · refine grouped_set hget (fun j f _ hj => hs.grouped j f hj) ?_
      exact ⟨hg.within, hg.leads, fun _ => hg.quiet (.inl hstage)⟩
  | strike group table hlisted hact =>
    exact hs.act hact (fun _ _ => Event.noConfusion) fun _ _ _ _ => Event.noConfusion

theorem sound : ∀ c, system.Reachable c → Sound c := by
  apply LTS.System.invariant
  · refine ⟨?_, ?_, ⟨?_, ?_⟩⟩
    · intro p hp
      cases hp
    · intro k h hget
      cases hget
    · intro k h hget
      cases hget
    · intro pid hpid
      cases hpid
  · intro c a d hs _ hstep
    exact sound_step hs (moves hstep)

/-! ### What follows from it -/

/-- A group that was killed for the last time has no living process. -/
theorem Sound.contained (hs : Sound c) (hget : c.holdings[k]? = some h)
    (hstage : h.stage = .closing ∨ h.stage = .released) : c.table.Quiet k :=
  (hs.grouped k h hget).quiet hstage

/-- What has a group's number is the holder's own, unless nothing of the holder is
    left and its first process was reaped. -/
theorem Sound.own (hs : Sound c) (hget : c.holdings[k]? = some h) {q : Process}
    (hq : q ∈ c.table.processes) (hgroup : q.group = h.pid) :
    q.holder = some k ∨
      h.status ≠ none ∧ ∀ p ∈ c.table.processes, p.holder ≠ some k := by
  have hg := hs.grouped k h hget
  by_cases hleft : ∃ p ∈ c.table.processes, p.holder = some k
  · obtain ⟨p, hp, hholder⟩ := hleft
    exact .inl (Table.kill_own hg.within hp hholder hq hgroup)
  · refine .inr ⟨fun hnone => ?_, fun p hp hholder => hleft ⟨p, hp, hholder⟩⟩
    obtain ⟨p, hp, -, -, hholder⟩ := hg.leads hnone
    exact hleft ⟨p, hp, hholder⟩

/-- Where no two groups had one number, the registry has those that are listed. -/
theorem Sound.registry_iff (hs : Sound c) (hnodup : (c.holdings.map Holding.pid).Nodup)
    (hget : c.holdings[k]? = some h) : h.pid ∈ c.registry ↔ h.IsListed := by
  have hunique : ∀ (j : Nat) (f : Holding), c.holdings[j]? = some f → f.pid = h.pid → f = h := by
    intro j f hj hpid
    exact List.inj_on_of_nodup_map hnodup (List.mem_of_getElem? hj) (List.mem_of_getElem? hget) hpid
  constructor
  · intro hmem
    obtain ⟨j, f, hj, hlisted, hpid⟩ := hs.registered.entered h.pid hmem
    exact hunique j f hj hpid ▸ hlisted
  · intro hlisted
    rcases hs.registered.listed k h hget hlisted with hmem | ⟨j, f, hj, hgone, hpid⟩
    · exact hmem
    · rw [hunique j f hj hpid] at hgone
      rcases hlisted with hstage | hstage <;> rw [hstage] at hgone <;> cases hgone

/-- What an act makes of the holdings. -/
theorem holdings_step (hmove : Moves c a d) {j : Nat} {f : Holding}
    (hget : d.holdings[j]? = some f) :
    (∃ h, c.holdings[j]? = some h ∧ f.pid = h.pid ∧ (f.stage = .started → h.stage = .started) ∧
        (a ≠ .wait j → f.status = h.status)) ∨
      ∃ pid, a = .start pid ∧ j = c.holdings.length ∧ f = ⟨pid, .started, none⟩ := by
  have hput : ∀ {k : Nat} {h : Holding} (g : Holding), c.holdings[k]? = some h → g.pid = h.pid →
      g.stage ≠ .started ∨ g.stage = h.stage → (a ≠ .wait k → g.status = h.status) →
      (c.holdings.set k g)[j]? = some f → ∃ h, c.holdings[j]? = some h ∧ f.pid = h.pid ∧
        (f.stage = .started → h.stage = .started) ∧ (a ≠ .wait j → f.status = h.status) := by
    intro k h g hk hpid hstage hstatus hset
    rcases Pool.getElem?_set_cases hk hset with ⟨-, hold⟩ | ⟨rfl, rfl⟩
    · exact ⟨f, hold, rfl, id, fun _ => rfl⟩
    · refine ⟨h, hk, hpid, fun hstarted => ?_, hstatus⟩
      rcases hstage with hno | hsame
      · exact absurd hstarted hno
      · exact hsame ▸ hstarted
  cases hmove with
  | outside => exact .inl ⟨f, hget, rfl, id, fun _ => rfl⟩
  | start pid =>
    rcases Pool.getElem?_snoc hget with hold | ⟨hj, hf⟩
    · exact .inl ⟨f, hold, rfl, id, fun _ => rfl⟩
    · exact .inr ⟨pid, rfl, hj, hf⟩
  | register k h hk =>
    exact .inl (hput { h with stage := .registered } hk rfl (.inl Stage.noConfusion)
      (fun _ => rfl) hget)
  | kill => exact .inl ⟨f, hget, rfl, id, fun _ => rfl⟩
  | wait k h status table hk =>
    exact .inl (hput { h with status := some status } hk rfl (.inr rfl)
      (fun hne => absurd rfl hne) hget)
  | close k h table hk =>
    exact .inl (hput { h with stage := .closing } hk rfl (.inl Stage.noConfusion)
      (fun _ => rfl) hget)
  | release k h hk =>
    exact .inl (hput { h with stage := .released } hk rfl (.inl Stage.noConfusion)
      (fun _ => rfl) hget)
  | strike => exact .inl ⟨f, hget, rfl, id, fun _ => rfl⟩

/-- The stage of a group after an act. -/
def stageAfter (a : Act) (k : Nat) (stage : Stage) : Stage :=
  match a with
  | .register j => if j = k then .registered else stage
  | .close j => if j = k then .closing else stage
  | .release j => if j = k then .released else stage
  | _ => stage

/-- The stage of a group before an act on it. -/
structure StageBefore (a : Act) (k : Nat) (stage : Stage) : Prop where
  register : a = .register k → stage = .started
  close : a = .close k → stage = .registered
  release : a = .release k → stage = .closing

theorem stage_step (hmove : Moves c a d) (hget : c.holdings[k]? = some h) :
    StageBefore a k h.stage ∧
      ∃ f, d.holdings[k]? = some f ∧ f.pid = h.pid ∧ f.stage = stageAfter a k h.stage := by
  have hput : ∀ {j : Nat} {f : Holding} (g : Holding), c.holdings[j]? = some f → g.pid = f.pid →
      ∃ l, (c.holdings.set j g)[k]? = some l ∧ l.pid = h.pid ∧
        l.stage = if j = k then g.stage else h.stage := by
    intro j f g hj hpid
    by_cases hjk : j = k
    · subst hjk
      obtain rfl : h = f := Option.some.inj (hget.symm.trans hj)
      exact ⟨g, get_set hget g, hpid, (if_pos rfl).symm⟩
    · exact ⟨h, get_set_ne hget hjk g, rfl, (if_neg hjk).symm⟩
  have hidle : (∀ j, a ≠ .register j) → (∀ j, a ≠ .close j) → (∀ j, a ≠ .release j) →
      StageBefore a k h.stage := fun hr hc hl =>
    ⟨fun heq => absurd heq (hr k), fun heq => absurd heq (hc k), fun heq => absurd heq (hl k)⟩
  have hsame : ∀ {j : Nat} {f : Holding} {stage : Stage}, c.holdings[j]? = some f →
      f.stage = stage → j = k → h.stage = stage := by
    intro j f stage hj hstage hjk
    subst hjk
    exact Option.some.inj (hget.symm.trans hj) ▸ hstage
  cases hmove with
  | outside e =>
    exact ⟨hidle (fun _ => Act.noConfusion) (fun _ => Act.noConfusion) fun _ => Act.noConfusion,
      h, hget, rfl, rfl⟩
  | start pid =>
    exact ⟨hidle (fun _ => Act.noConfusion) (fun _ => Act.noConfusion) fun _ => Act.noConfusion,
      h, get_snoc hget _, rfl, rfl⟩
  | register j f hj hstage =>
    refine ⟨⟨fun heq => hsame hj hstage (Act.register.inj heq), Act.noConfusion,
      Act.noConfusion⟩, ?_⟩
    exact hput { f with stage := .registered } hj rfl
  | kill j =>
    exact ⟨hidle (fun _ => Act.noConfusion) (fun _ => Act.noConfusion) fun _ => Act.noConfusion,
      h, hget, rfl, rfl⟩
  | wait j f status table hj =>
    refine ⟨hidle (fun _ => Act.noConfusion) (fun _ => Act.noConfusion) fun _ => Act.noConfusion,
      ?_⟩
    obtain ⟨g, hg, hpid, hstage⟩ := hput { f with status := some status } hj rfl
    refine ⟨g, hg, hpid, hstage.trans ?_⟩
    split
    · next hjk => exact (hsame hj rfl hjk).symm
    · rfl
  | close j f table hj hstage =>
    refine ⟨⟨Act.noConfusion, fun heq => hsame hj hstage (Act.close.inj heq), Act.noConfusion⟩, ?_⟩
    exact hput { f with stage := .closing } hj rfl
  | release j f hj hstage =>
    refine ⟨⟨Act.noConfusion, Act.noConfusion,
      fun heq => hsame hj hstage (Act.release.inj heq)⟩, ?_⟩
    exact hput { f with stage := .released } hj rfl
  | strike group =>
    exact ⟨hidle (fun _ => Act.noConfusion) (fun _ => Act.noConfusion) fun _ => Act.noConfusion,
      h, hget, rfl, rfl⟩

/-- Only starting a group adds one. -/
theorem length_step (hmove : Moves c a d) (ha : ∀ pid, a ≠ .start pid) :
    d.holdings.length = c.holdings.length := by
  cases hmove with
  | start pid => exact absurd rfl (ha pid)
  | register => exact List.length_set
  | wait => exact List.length_set
  | close => exact List.length_set
  | release => exact List.length_set
  | _ => rfl

/-- A signal to a group ends it. -/
theorem Sound.killed (hs : Sound c) (hstep : c.step (.kill k) = some d) : d.table.Quiet k := by
  cases moves hstep with
  | kill _ h table hget _ hact => exact (hs.grouped k h hget).within.kill hact

/-- An emergency ends a registered group. -/
theorem Sound.struck (hs : Sound c) (hget : c.holdings[k]? = some h)
    (hstep : c.step (.strike h.pid) = some d) : d.table.Quiet k := by
  cases moves hstep with
  | strike _ table _ hact => exact (hs.grouped k h hget).within.kill hact

theorem quiet_step (hquiet : c.table.Quiet k) (hlt : k < c.holdings.length) (hmove : Moves c a d) :
    d.table.Quiet k ∧ k < d.holdings.length := by
  cases hmove with
  | outside e table hallows hact =>
    refine ⟨hquiet.act hact fun pid heq => ?_, hlt⟩
    rw [heq] at hallows
    cases hallows
  | start pid table hact =>
    refine ⟨hquiet.act hact fun pid' heq => ?_, ?_⟩
    · obtain ⟨-, hholder⟩ := Event.lead.inj heq
      exact Nat.ne_of_gt hlt (Option.some.inj hholder)
    · rw [List.length_append]
      exact Nat.lt_add_right _ hlt
  | register => exact ⟨hquiet, lt_set hlt⟩
  | kill k h table hget hstage hact => exact ⟨hquiet.act hact fun _ => Event.noConfusion, hlt⟩
  | wait k h status table hget hstatus hfind hact =>
    exact ⟨hquiet.act hact fun _ => Event.noConfusion,
      lt_set hlt⟩
  | close k h table hget hstage hact =>
    exact ⟨hquiet.act hact fun _ => Event.noConfusion,
      lt_set hlt⟩
  | release => exact ⟨hquiet, lt_set hlt⟩
  | strike group table hlisted hact =>
    exact ⟨hquiet.act hact fun _ => Event.noConfusion, hlt⟩

/-- A group without a living process stays so. -/
theorem quiet_run {as : List Act} (hquiet : c.table.Quiet k) (hlt : k < c.holdings.length)
    (hrun : system.run c as = some d) : d.table.Quiet k :=
  (LTS.System.run_invariant _ (P := fun c => c.table.Quiet k ∧ k < c.holdings.length)
    (fun _ _ _ h hstep => quiet_step h.1 h.2 (moves hstep)) ⟨hquiet, hlt⟩ hrun).1

end

end Custody

end Groups
