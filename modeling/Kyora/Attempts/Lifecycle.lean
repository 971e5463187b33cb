import Kyora.Attempts.Steps
import Kyora.Framework.Pool

/-! # Lifecycle of attempts

  A call holds at most one unsettled reservation, under the permit it took it
  with, and gives it back before the permit on every way out. So the
  semaphore bounds the unsettled attempts of the ledger, and nothing stays
  reserved when all calls have ended.
-/

namespace Kyora.Attempts

open Ledger (Reservation Issued Session Charge AttemptCharge)

/-! ### One call -/

/-- The smallest output cap an attempt of the call may be dispatched with. -/
def Call.floor (c : Call) : Nat := min minOutputTokens c.requested

/-- What a call holds where it stands. -/
def Call.Holds (c : Call) : Prop :=
  match c.pc with
  | .admitted | .settled _ _ => c.permit = true ∧ c.guard = none
  | .starting => c.permit = true ∧
    ∃ r, c.guard = some ⟨r, false⟩ ∧ c.floor ≤ r.maxTokens
  | .dispatching => c.permit = true ∧ ∃ r, c.guard = some ⟨r, false⟩
  | .streaming => c.permit = true ∧ ∃ r, c.guard = some ⟨r, true⟩
  | .finished result _ => c.permit = true ∧
    ∃ g, c.guard = some g ∧ (g.dispatched = false → result.charge = .failed .zero)
  | .leaving _ => c.guard ≠ none → c.permit = true
  | _ => c.permit = false ∧ c.guard = none

/-- How many requests a call has dispatched, by where it stands. -/
def Call.Counts (policy : RetryPolicy) (c : Call) : Prop :=
  match c.pc with
  | .resolving => c.caps = [] ∧ c.failures = 0
  | .acquiring | .admitted | .starting | .dispatching | .resetting | .waiting =>
    c.caps.length ≤ c.failures ∧ c.failures ≤ policy.maxRetries
  | .streaming | .finished _ _ | .settled _ _ | .recording _ _ | .failed _ =>
    c.caps.length ≤ c.failures + 1 ∧ c.failures ≤ policy.maxRetries
  | .leaving _ | .ended _ => c.caps.length ≤ policy.maxRetries + 1

/-- The bounds on one call. -/
structure Call.Sound (policy : RetryPolicy) (c : Call) : Prop where
  holds : c.Holds
  counts : c.Counts policy
  unhinted : c.unhintedRetries ≤ c.unhinted
  retries : c.unhintedRetries ≤ policy.maxUnhinted429Retries
  /-- The cap is never reduced below the floor. -/
  cap : c.floor ≤ c.maxTokens
  caps : ∀ cap ∈ c.caps, c.floor ≤ cap

theorem fresh_sound (policy : RetryPolicy) (node : NodeId) (maxTokens : Nat) :
    (Call.fresh node maxTokens).Sound policy := by
  refine ⟨⟨rfl, rfl⟩, ⟨rfl, rfl⟩, Nat.le_refl _, Nat.zero_le _, Nat.min_le_right _ _, ?_⟩
  intro cap hcap
  cases hcap

/-- A call that is cancelled or whose future is dropped leaves its scope. -/
theorem Call.Sound.leave {policy : RetryPolicy} {c : Call} (h : c.Sound policy) {exit : Exit}
    (hpermit : c.guard ≠ none → c.permit = true)
    (hcount : c.caps.length ≤ policy.maxRetries + 1) :
    Call.Sound policy { c with pc := .leaving exit } :=
  ⟨hpermit, hcount, h.unhinted, h.retries, h.cap, h.caps⟩

/-- Wherever it stands, a call with a guard holds its permit. -/
theorem Call.Holds.permit {c : Call} (h : c.Holds) (hguard : c.guard ≠ none) :
    c.permit = true := by
  unfold Call.Holds at h
  split at h
  · exact h.1
  · exact h.1
  · exact h.1
  · exact h.1
  · exact h.1
  · exact h.1
  · exact h hguard
  · exact absurd h.2 hguard

/-- Wherever it stands, a call has dispatched at most one request for every
    retry and one more. -/
theorem Call.Counts.total {policy : RetryPolicy} {c : Call} (h : c.Counts policy) :
    c.caps.length ≤ policy.maxRetries + 1 := by
  unfold Call.Counts at h
  split at h
  · rw [h.1]
    exact Nat.zero_le _
  all_goals omega

theorem Moved.sound {cfg : Config} {s u : State} {c c' : Call} (h : c.Sound cfg.retry)
    (hmove : Moved cfg s c u c') : c'.Sound cfg.retry := by
  obtain ⟨hholds, hcounts, hunhinted, hretries, hcap, hcaps⟩ := id h
  have hleave : ∀ {exit : Exit}, Call.Sound cfg.retry { c with pc := .leaving exit } :=
    h.leave hholds.permit hcounts.total
  unfold Call.Holds at hholds
  unfold Call.Counts at hcounts
  cases hmove with
  | resolved limit prompt hpc =>
    rw [hpc] at hholds hcounts
    refine ⟨hholds, ⟨?_, ?_⟩, hunhinted, hretries, Nat.min_le_right _ _, ?_⟩
    · show c.caps.length ≤ c.failures
      rw [hcounts.1]
      exact Nat.zero_le _
    · show c.failures ≤ _
      rw [hcounts.2]
      exact Nat.zero_le _
    · intro cap hmem
      have hmem' : cap ∈ c.caps := hmem
      rw [hcounts.1] at hmem'
      cases hmem'
  | unresolved error hpc => exact hleave
  | cancelled hpc => exact hleave
  | acquired hpc hslots =>
    rw [hpc] at hholds hcounts
    exact ⟨⟨rfl, hholds.2⟩, hcounts, hunhinted, hretries, hcap, hcaps⟩
  | reserved ledger r hpc hres =>
    rw [hpc] at hholds hcounts
    obtain ⟨_, _, -, -, -, -, -, -, -, -, hfloor, -⟩ := Ledger.reserve_ok hres
    -- The reservation keeps the floor of the cap it was asked for.
    have hkept : c.floor ≤ r.maxTokens := by
      have hmin : c.floor ≤ min minOutputTokens c.maxTokens :=
        Nat.le_min.mpr ⟨Nat.min_le_left _ _, hcap⟩
      exact Nat.le_trans hmin hfloor
    exact ⟨⟨hholds.1, r, rfl, hkept⟩, hcounts, hunhinted, hretries, hcap, hcaps⟩
  | exhausted ledger e hpc hres => exact hleave
  | started g hpc hguard =>
    rw [hpc] at hholds hcounts
    obtain ⟨hpermit, r, hr, hfloor⟩ := hholds
    rw [hguard, Option.some.injEq] at hr
    subst hr
    exact ⟨⟨hpermit, r, hguard⟩, hcounts, hunhinted, hretries, hfloor, hcaps⟩
  | unstarted g hpc hguard hsettle =>
    have hend := @hleave .trace
    exact ⟨fun hnone => absurd rfl hnone, hend.counts, hunhinted, hretries, hcap, hcaps⟩
  | unsent hpc =>
    rw [hpc] at hholds hcounts
    obtain ⟨hpermit, r, hr⟩ := hholds
    refine ⟨⟨hpermit, _, hr, fun _ => rfl⟩, ⟨?_, hcounts.2⟩, hunhinted, hretries, hcap, hcaps⟩
    exact Nat.le_succ_of_le hcounts.1
  | dispatched hpc =>
    rw [hpc] at hholds hcounts
    obtain ⟨hpermit, r, hr⟩ := hholds
    refine ⟨⟨hpermit, r, ?_⟩, ⟨?_, hcounts.2⟩, hunhinted, hretries, hcap, ?_⟩
    · show c.guard.map _ = _
      rw [hr]
      rfl
    · show (c.caps ++ [c.maxTokens]).length ≤ c.failures + 1
      rw [List.length_append, List.length_singleton]
      exact Nat.add_le_add_right hcounts.1 1
    · intro cap hmem
      rcases List.mem_append.mp hmem with hmem | hmem
      · exact hcaps cap hmem
      · rw [List.mem_singleton.mp hmem]
        exact hcap
  | streamed result isPartial panicked hpc =>
    rw [hpc] at hholds hcounts
    obtain ⟨hpermit, r, hr⟩ := hholds
    refine ⟨⟨hpermit, _, hr, fun hno => ?_⟩, hcounts, hunhinted, hretries, hcap, hcaps⟩
    cases hno
  | settled result panicked g hpc hguard hsettle =>
    rw [hpc] at hholds hcounts
    exact ⟨⟨hholds.1, rfl⟩, hcounts, hunhinted, hretries, hcap, hcaps⟩
  | released result panicked hpc =>
    rw [hpc] at hholds hcounts
    exact ⟨⟨rfl, hholds.2⟩, hcounts, hunhinted, hretries, hcap, hcaps⟩
  | recorded result panicked exit hpc => exact hleave
  | failed error hpc =>
    rw [hpc] at hholds hcounts
    exact ⟨hholds, hcounts, hunhinted, hretries, hcap, hcaps⟩
  | gaveUp error unhinted hpc hmore =>
    have hend := @hleave (.provider error)
    exact ⟨hend.holds, hend.counts, Nat.le_trans hunhinted hmore, hretries, hcap, hcaps⟩
  | retried error jitter delay pc hpc hto hdelay =>
    rw [hpc] at hholds hcounts
    obtain ⟨hfailures, hlimit⟩ := RetryPolicy.nextDelay_eq_some hdelay
    -- A retry after an unhinted 429 is one of those the policy counts.
    have hnew : c.unhintedRetries + error.isUnhinted.toNat ≤
        cfg.retry.maxUnhinted429Retries := by
      cases hcase : error.isUnhinted
      · simpa using hretries
      · have hle := hlimit hcase
        rw [hcase] at hle
        exact Nat.le_trans (Nat.add_le_add_right hunhinted _) hle
    have hcount : c.caps.length ≤ c.failures + 1 ∧ c.failures + 1 ≤ cfg.retry.maxRetries :=
      ⟨hcounts.1, hfailures⟩
    rcases hto with rfl | rfl
    · exact ⟨hholds, hcount, Nat.add_le_add_right hunhinted _, hnew, hcap, hcaps⟩
    · exact ⟨hholds, hcount, Nat.add_le_add_right hunhinted _, hnew, hcap, hcaps⟩
  | reset hpc =>
    rw [hpc] at hholds hcounts
    exact ⟨hholds, hcounts, hunhinted, hretries, hcap, hcaps⟩
  | unreset hpc => exact hleave
  | woken hpc =>
    rw [hpc] at hholds hcounts
    exact ⟨hholds, hcounts, hunhinted, hretries, hcap, hcaps⟩
  | unwound hpc => exact hleave
  | droppedGuard exit g hpc hguard hsettle =>
    have hend := @hleave exit
    refine ⟨?_, ?_, hunhinted, hretries, hcap, hcaps⟩
    · unfold Call.Holds
      simp only [hpc]
      exact fun hnone => absurd rfl hnone
    · unfold Call.Counts
      simp only [hpc]
      exact hend.counts
  | droppedPermit exit hpc hguard hpermit =>
    have hend := @hleave exit
    refine ⟨?_, ?_, hunhinted, hretries, hcap, hcaps⟩
    · unfold Call.Holds
      simp only [hpc]
      exact fun hnone => absurd hguard hnone
    · unfold Call.Counts
      simp only [hpc]
      exact hend.counts
  | ended exit hpc hguard hpermit =>
    have hend := @hleave exit
    exact ⟨⟨hpermit, hguard⟩, hend.counts, hunhinted, hretries, hcap, hcaps⟩

/-! ### Reservations and permits -/

/-- The reservation a call holds. -/
def Call.held (c : Call) : Option Issued :=
  c.guard.map fun g => ⟨c.node, g.reservation⟩

theorem Call.held_eq_none {c : Call} (h : c.guard = none) : c.held = none := by
  rw [held, h, Option.map_none]

theorem Call.held_eq_some {c : Call} {g : Guard} (h : c.guard = some g) :
    c.held = some ⟨c.node, g.reservation⟩ := by
  rw [held, h, Option.map_some]

/-- What a move passes between its call, the ledger and the semaphore. -/
structure Passes (s : State) (c : Call) (u : State) (c' : Call) : Prop where
  calls : u.calls = s.calls
  trade : Pool.Trade s.session.outstanding c.held c'.held u.session.outstanding
  permits : u.slots + c'.permit.toNat = s.slots + c.permit.toNat
  /-- The permit is given back after the reservation. -/
  order : c.permit = true → c'.permit = false → c.guard = none

/-- A move that leaves the shared state alone and its permit with the call. -/
theorem passes_of_keep {s : State} {c c' : Call} (hheld : c'.held = c.held)
    (hpermit : c'.permit = c.permit) : Passes s c s c' where
  calls := rfl
  trade := .keep hheld
  permits := by rw [hpermit]
  order := fun htrue hfalse => by rw [hpermit, htrue] at hfalse; cases hfalse

/-- A settlement takes the reservation out of the ledger and off the call. -/
theorem Settles.passes {cfg : Config} {s u : State} {c c' : Call} {g : Guard} {charge : Charge}
    (h : Settles cfg s c g charge u) (hguard : c.guard = some g) (hnone : c'.guard = none)
    (hpermit : c'.permit = c.permit) : Passes s c u c' where
  calls := h.calls
  trade := by
    rw [h.outstanding]
    exact .give _ (Call.held_eq_some hguard) (Call.held_eq_none hnone)
  permits := by rw [h.slots, hpermit]
  order := fun htrue hfalse => by rw [hpermit, htrue] at hfalse; cases hfalse

/-- A permit goes back to the semaphore. -/
theorem passes_of_release {s : State} {c c' : Call} (hguard : c.guard = none)
    (hheld : c'.held = c.held) (htrue : c.permit = true) (hfalse : c'.permit = false) :
    Passes s c { s with slots := s.slots + 1 } c' where
  calls := rfl
  trade := .keep hheld
  permits := by rw [htrue, hfalse]; rfl
  order := fun _ _ => hguard

theorem Moved.passes {cfg : Config} {s u : State} {c c' : Call} (h : c.Sound cfg.retry)
    (hmove : Moved cfg s c u c') : Passes s c u c' := by
  have hholds := h.holds
  unfold Call.Holds at hholds
  cases hmove with
  | acquired hpc hslots =>
    rw [hpc] at hholds
    refine ⟨rfl, .keep rfl, ?_, fun _ hfalse => by cases hfalse⟩
    -- The semaphore had a permit left, and the call had none.
    show s.slots - 1 + 1 = s.slots + c.permit.toNat
    rw [hholds.1]
    exact Nat.sub_add_cancel hslots
  | reserved ledger r hpc hres =>
    rw [hpc] at hholds
    exact ⟨rfl, .take _ (Call.held_eq_none hholds.2) rfl, rfl,
      fun htrue hfalse => by rw [htrue] at hfalse; cases hfalse⟩
  | exhausted ledger e hpc hres =>
    exact ⟨rfl, .keep rfl, rfl, fun htrue hfalse => by rw [htrue] at hfalse; cases hfalse⟩
  | unstarted g hpc hguard hsettle =>
    exact (settles_of_settle hsettle).passes hguard rfl rfl
  | dispatched hpc =>
    refine passes_of_keep ?_ rfl
    -- Only the mark of the guard changes, not its reservation.
    show (c.guard.map fun g => { g with dispatched := true }).map _ = c.guard.map _
    rw [Option.map_map]
    rfl
  | settled result panicked g hpc hguard hsettle =>
    exact (settles_of_settle hsettle).passes hguard rfl rfl
  | released result panicked hpc =>
    rw [hpc] at hholds
    exact passes_of_release hholds.2 rfl hholds.1 rfl
  | droppedGuard exit g hpc hguard hsettle =>
    exact (settles_of_settle hsettle).passes hguard rfl rfl
  | droppedPermit exit hpc hguard hpermit => exact passes_of_release hguard rfl hpermit rfl
  | _ => exact passes_of_keep rfl rfl

/-! ### The history -/

/-- The ledger's entry for a settlement. -/
def Record.settled (x : Record) : Ledger.Settled :=
  ⟨x.issued, x.charge.charged x.issued.reservation.tokens,
    x.charge.recorded x.issued.reservation.tokens⟩

/-- Every reservation obtained is unsettled or was settled, and those that were
    never dispatched were settled for nothing. -/
structure Booked (s : State) : Prop where
  obtained : s.obtained.Perm (s.session.outstanding ++ s.log.map Record.issued)
  settled : s.session.settled = s.log.map Record.settled
  zero : ∀ x ∈ s.log, x.dispatched = false → x.charge = .failed .zero

/-- The history only changes with a reservation or a settlement. -/
theorem Booked.congr {s u : State} (h : Booked s)
    (hout : u.session.outstanding = s.session.outstanding)
    (hset : u.session.settled = s.session.settled) (hobtained : u.obtained = s.obtained)
    (hlog : u.log = s.log) : Booked u :=
  ⟨by rw [hobtained, hout, hlog]; exact h.obtained, by rw [hset, hlog]; exact h.settled,
    by rw [hlog]; exact h.zero⟩

theorem Booked.settle {cfg : Config} {s u : State} {c : Call} {g : Guard} {charge : Charge}
    (h : Booked s) (hm : Ledger.Matched s.session) (hsettles : Settles cfg s c g charge u)
    (hzero : g.dispatched = false → charge = .failed .zero) : Booked u := by
  obtain ⟨result, hcall, hset⟩ := hsettles.settled
  obtain ⟨a, _, _, _, ha, -, -, -, -, -, -, -, -, -, hcharged, -⟩ := Ledger.settle_ok hcall
  -- The ledger charges by the tokens of the attempt, which are those reserved.
  obtain rfl : a = Ledger.Issued.attempt ⟨c.node, g.reservation⟩ :=
    Option.some.inj (ha.symm.trans (hm.find?_attempt hsettles.held))
  refine ⟨?_, ?_, ?_⟩
  · rw [hsettles.obtained, hsettles.outstanding, hsettles.log, List.map_append]
    refine h.obtained.trans ?_
    have hsplit := (List.perm_cons_erase hsettles.held).append_right (s.log.map Record.issued)
    refine hsplit.trans ?_
    rw [← List.append_assoc]
    exact (List.perm_append_singleton _ _).symm
  · rw [hset, hsettles.log, List.map_append, h.settled, hcharged]
    rfl
  · rw [hsettles.log]
    intro x hx
    rcases List.mem_append.mp hx with hx | hx
    · exact h.zero x hx
    · rw [List.mem_singleton.mp hx]
      exact hzero

theorem Moved.booked {cfg : Config} {s u : State} {c c' : Call} (hb : Booked s)
    (hm : Ledger.Matched s.session) (h : c.Sound cfg.retry) (hmove : Moved cfg s c u c') :
    Booked u := by
  have hholds := h.holds
  unfold Call.Holds at hholds
  cases hmove with
  | reserved ledger r hpc hres =>
    refine ⟨?_, hb.settled, hb.zero⟩
    show (s.obtained ++ [Issued.mk c.node r]).Perm
      (s.session.outstanding ++ [Issued.mk c.node r] ++ s.log.map Record.issued)
    rw [List.append_assoc]
    refine (List.perm_append_singleton _ _).trans ((hb.obtained.cons _).trans ?_)
    exact List.perm_middle.symm
  | unstarted g hpc hguard hsettle =>
    exact hb.settle hm (settles_of_settle hsettle) fun _ => rfl
  | settled result panicked g hpc hguard hsettle =>
    rw [hpc] at hholds
    obtain ⟨-, g', hg', hzero⟩ := hholds
    obtain rfl : g = g' := Option.some.inj (hguard.symm.trans hg')
    exact hb.settle hm (settles_of_settle hsettle) hzero
  | droppedGuard exit g hpc hguard hsettle =>
    refine hb.settle hm (settles_of_settle hsettle) fun hno => ?_
    unfold Guard.dropCharge
    rw [hno]
    rfl
  | _ => exact hb.congr rfl rfl rfl rfl

/-! ### All calls -/

structure Invariant (cfg : Config) (s : State) : Prop where
  sound : ∀ c ∈ s.calls, c.Sound cfg.retry
  held : Pool.Held Call.held s.session.outstanding s.calls
  permits : Pool.Full cfg.limits.maxInflightRequests s.slots Call.permit s.calls
  booked : Booked s

theorem invariant_init (cfg : Config) : Invariant cfg (attempts cfg).init where
  sound := fun c hc => by cases hc
  held := Pool.held_nil
  permits := Pool.full_nil
  booked := ⟨.refl _, rfl, fun x hx => by cases hx⟩

/-- Other tasks neither reserve nor settle. -/
theorem foreign_keeps {limits : Limits} {s t : Session} {l : Ledger.Call}
    (hforeign : isForeign l = true) (h : Ledger.step limits s l = some t) :
    t.outstanding = s.outstanding ∧ t.settled = s.settled := by
  rcases Ledger.step_cases h with
    ⟨_, _, _, _, -, -, hout, hset⟩ | ⟨_, _, _, _, rfl, -⟩ | ⟨_, _, _, rfl, -⟩ |
    ⟨-, -, -, hout, hset⟩
  · exact ⟨hout, hset⟩
  · cases hforeign
  · cases hforeign
  · exact ⟨hout, hset⟩

theorem invariant_step {cfg : Config} {s t : State} {l : Label}
    (hm : Ledger.Matched s.session) (h : Invariant cfg s) (hstep : step cfg s l = some t) :
    Invariant cfg t := by
  rcases step_cases hstep with
    ⟨l', session, hforeign, hl', rfl⟩ | ⟨node, maxTokens, rfl⟩ | ⟨k, c, u, c', hk, hmove, rfl⟩
  · obtain ⟨hout, hset⟩ := foreign_keeps hforeign hl'
    refine ⟨h.sound, ?_, h.permits, h.booked.congr hout hset rfl rfl⟩
    show Pool.Held Call.held session.outstanding s.calls
    rw [hout]
    exact h.held
  · refine ⟨?_, h.held.snoc rfl, h.permits.snoc rfl,
      h.booked.congr rfl rfl rfl rfl⟩
    intro c hc
    rcases List.mem_append.mp hc with hc | hc
    · exact h.sound c hc
    · rw [List.mem_singleton.mp hc]
      exact fresh_sound cfg.retry node maxTokens
  · have hc := h.sound c (List.mem_of_getElem? hk)
    have hpasses := hmove.passes hc
    have hcalls : (u.setCall k c').calls = s.calls.set k c' := by
      rw [← hpasses.calls]
      rfl
    refine ⟨?_, ?_, ?_, (hmove.booked h.booked hm hc).congr rfl rfl rfl rfl⟩
    · rw [hcalls]
      intro d hd
      rcases List.mem_or_eq_of_mem_set hd with hd | rfl
      · exact h.sound d hd
      · exact hmove.sound hc
    · rw [hcalls]
      exact h.held.set hk hpasses.trade
    · rw [hcalls]
      exact h.permits.set hk hpasses.permits

theorem invariant_of_reachable {cfg : Config} {s : State} (h : (attempts cfg).Reachable s) :
    Invariant cfg s :=
  LTS.System.invariant_with (fun _ hs => Ledger.matched_of_reachable (session_reachable hs))
    (invariant_init cfg) (fun _ _ _ hm _ hs _ hstep => invariant_step hm hs hstep) s h

/-! ### The lifecycle -/

/-- What every state of every execution satisfies. -/
structure Lifecycle (cfg : Config) (s : State) : Prop where
  /-- No reservation is obtained twice. -/
  distinct : (s.obtained.map fun x => x.reservation.id).Nodup
  /-- Each is unsettled or was settled, and that once. -/
  once : s.obtained.Perm (s.session.outstanding ++ s.log.map Record.issued)
  /-- The ledger has exactly these settlements. -/
  settled : s.session.settled = s.log.map Record.settled
  /-- A request that was never dispatched costs nothing. -/
  zero : ∀ x ∈ s.log, x.dispatched = false →
    x.charge = .failed .zero ∧ x.settled.charged = 0
  /-- An unsettled reservation belongs to a call that still has its permit. -/
  held : ∀ x ∈ s.session.outstanding, ∃ c ∈ s.calls, c.held = some x ∧ c.permit = true
  /-- A permit is released only when the reservation taken under it is settled. -/
  order : ∀ {l : Label} {t : State} {k : Nat} {c c' : Call}, step cfg s l = some t →
    s.calls[k]? = some c → t.calls[k]? = some c' → c.permit = true → c'.permit = false →
    c.guard = none ∧ c'.guard = none
  /-- No settlement panics, whichever way the call goes on. -/
  settles : ∀ c ∈ s.calls, ∀ g, c.guard = some g → ∀ charge, (s.settle cfg c g charge).isSome
  inflight : s.session.ledger.attempts.length ≤ cfg.limits.maxInflightRequests
  /-- When all calls have ended, everything was settled. -/
  quiet : (∀ c ∈ s.calls, ∃ exit, c.pc = .ended exit) →
    s.session.ledger.attempts = [] ∧
    (∀ {i : NodeId} {n : Ledger.Scope}, s.session.ledger.scopes[i]? = some n → n.budget.reserved = 0) ∧
    s.obtained.Perm (s.log.map Record.issued) ∧
    s.slots = cfg.limits.maxInflightRequests
  dispatches : ∀ c ∈ s.calls, c.caps.length ≤ cfg.retry.maxRetries + 1
  unhinted : ∀ c ∈ s.calls, c.unhintedRetries ≤ cfg.retry.maxUnhinted429Retries
  caps : ∀ c ∈ s.calls, ∀ cap ∈ c.caps, min 4096 c.requested ≤ cap

theorem Invariant.held_permit {cfg : Config} {s : State} (h : Invariant cfg s) {c : Call}
    (hc : c ∈ s.calls) (hheld : c.held ≠ none) : c.permit = true :=
  (h.sound c hc).holds.permit fun hnone => hheld (Call.held_eq_none hnone)

/-- Calls that have ended hold nothing. -/
theorem ended_holds {cfg : Config} {s : State} (h : Invariant cfg s) {c : Call} (hc : c ∈ s.calls)
    {exit : Exit} (hpc : c.pc = .ended exit) : c.permit = false ∧ c.guard = none := by
  have hholds := (h.sound c hc).holds
  unfold Call.Holds at hholds
  rw [hpc] at hholds
  exact hholds

/-- A step releases a permit only of a call that holds no reservation. -/
theorem Invariant.order {cfg : Config} {s t : State} {l : Label} (h : Invariant cfg s)
    (hstep : step cfg s l = some t) {k : Nat} {c c' : Call} (hc : s.calls[k]? = some c)
    (hc' : t.calls[k]? = some c') (htrue : c.permit = true) (hfalse : c'.permit = false) :
    c.guard = none := by
  rcases step_cases hstep with
    ⟨l', session, -, -, rfl⟩ | ⟨node, maxTokens, rfl⟩ | ⟨j, d, u, d', hd, hmove, rfl⟩
  · obtain rfl : c = c' := Option.some.inj (hc.symm.trans hc')
    rw [htrue] at hfalse
    cases hfalse
  · have hlt : k < s.calls.length := (List.getElem?_eq_some_iff.mp hc).1
    have hsame : (s.calls ++ [Call.fresh node maxTokens])[k]? = some c := by
      rw [List.getElem?_append_left hlt]
      exact hc
    obtain rfl : c = c' := Option.some.inj (hsame.symm.trans hc')
    rw [htrue] at hfalse
    cases hfalse
  · have hpasses := hmove.passes (h.sound d (List.mem_of_getElem? hd))
    have hset : (s.calls.set j d')[k]? = some c' := by
      rw [← hpasses.calls]
      exact hc'
    by_cases hjk : j = k
    · subst hjk
      obtain rfl : d = c := Option.some.inj (hd.symm.trans hc)
      have hlt : j < s.calls.length := (List.getElem?_eq_some_iff.mp hc).1
      rw [List.getElem?_set_self hlt] at hset
      obtain rfl := Option.some.inj hset
      exact hpasses.order htrue hfalse
    · rw [List.getElem?_set_ne hjk, hc] at hset
      obtain rfl := Option.some.inj hset
      rw [htrue] at hfalse
      cases hfalse

/-- A call whose first stream breaks off, and whose future is dropped while its
    second attempt is being recorded; a second call is still streaming. -/
def retriedLabels : List Label :=
  [.call 0 32000, .call 0 8000, .resolved 0 none 100, .acquire 0, .reserve 0, .emitted 0,
    .dispatch 0, .stream 0 (.failure (.http 500 "broken" none)) true, .settle 0, .release 0,
    .emitted 0, .retry 0 (fun ceiling => ceiling), .emitted 0, .wake 0, .acquire 0, .reserve 0,
    .resolved 1 (some 5000) 20, .acquire 1, .reserve 1, .emitted 1, .dispatch 1,
    .unwind 0, .leave 0, .leave 0, .leave 0]

end Kyora.Attempts
