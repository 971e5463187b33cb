import Kyora.Attempts.Basic

/-! # What one step of a call does

  `Moved` lists the moves of one call with the state they leave behind, before
  the call itself is stored; `step_cases` says that a step is one of another
  task, a new call, or a move of one call.
-/

namespace Kyora.Attempts

open Ledger (Reservation Issued Session Charge AttemptCharge)

/-- The moves of a call `c` in the state `s`. -/
inductive Moved (cfg : Config) (s : State) (c : Call) : State → Call → Prop where
  | resolved (limit : Option Nat) (prompt : Nat) (hpc : c.pc = .resolving) :
      Moved cfg s c s (c.resolve cfg limit prompt)
  | unresolved (error : ProviderError) (hpc : c.pc = .resolving) :
      Moved cfg s c s { c with pc := .leaving (.provider error) }
  | cancelled (hpc : c.pc.isCancellable = true) :
      Moved cfg s c s { c with pc := .leaving .cancelled }
  | acquired (hpc : c.pc = .acquiring) (hslots : 1 ≤ s.slots) :
      Moved cfg s c { s with slots := s.slots - 1 } { c with permit := true, pc := .admitted }
  | reserved (ledger : Ledger.State) (r : Reservation) (hpc : c.pc = .admitted)
      (hres : Ledger.reserve s.session.ledger c.node c.prompt c.maxTokens =
        some (ledger, .ok r)) :
      Moved cfg s c
        { s with
          session := s.session.keep c.node (ledger, .ok r)
          obtained := s.obtained ++ [Issued.mk c.node r] }
        { c with guard := some ⟨r, false⟩, pc := .starting }
  | exhausted (ledger : Ledger.State) (e : String) (hpc : c.pc = .admitted)
      (hres : Ledger.reserve s.session.ledger c.node c.prompt c.maxTokens =
        some (ledger, .error e)) :
      Moved cfg s c { s with session := s.session.keep c.node (ledger, .error e) }
        { c with pc := .leaving .budget }
  | started (g : Guard) (hpc : c.pc = .starting) (hguard : c.guard = some g) :
      Moved cfg s c s { c with
        maxTokens := g.reservation.maxTokens, isPartial := false, pc := .dispatching }
  | unstarted (g : Guard) {u : State} (hpc : c.pc = .starting) (hguard : c.guard = some g)
      (hsettle : s.settle cfg c g (.failed .zero) = some u) :
      Moved cfg s c u { c with guard := none, pc := .leaving .trace }
  | unsent (hpc : c.pc = .dispatching) :
      Moved cfg s c s { c with
        pc := .finished (.failure (.notSent "cancelled before dispatch")) false }
  | dispatched (hpc : c.pc = .dispatching) :
      Moved cfg s c s { c with
        guard := c.guard.map fun g => { g with dispatched := true }
        caps := c.caps ++ [c.maxTokens]
        pc := .streaming }
  | streamed (result : Result) (isPartial panicked : Bool) (hpc : c.pc = .streaming) :
      Moved cfg s c s { c with isPartial, pc := .finished result panicked }
  | settled (result : Result) (panicked : Bool) (g : Guard) {u : State}
      (hpc : c.pc = .finished result panicked) (hguard : c.guard = some g)
      (hsettle : s.settle cfg c g result.charge = some u) :
      Moved cfg s c u { c with guard := none, pc := .settled result panicked }
  | released (result : Result) (panicked : Bool) (hpc : c.pc = .settled result panicked) :
      Moved cfg s c { s with slots := s.slots + 1 }
        { c with permit := false, pc := .recording result panicked }
  | recorded (result : Result) (panicked : Bool) (exit : Exit)
      (hpc : c.pc = .recording result panicked) :
      Moved cfg s c s { c with pc := .leaving exit }
  | failed (error : ProviderError) (hpc : c.pc = .recording (.failure error) false) :
      Moved cfg s c s { c with pc := .failed error }
  | gaveUp (error : ProviderError) (unhinted : Nat) (hpc : c.pc = .failed error)
      (hunhinted : c.unhinted ≤ unhinted) :
      Moved cfg s c s { c with
        failures := c.failures + 1, unhinted, pc := .leaving (.provider error) }
  | retried (error : ProviderError) (jitter : Nat → Nat) (delay : Nat) (pc : Pc)
      (hpc : c.pc = .failed error) (hto : pc = .resetting ∨ pc = .waiting)
      (hdelay : cfg.retry.nextDelay error (c.failures + 1)
        (c.unhinted + error.isUnhinted.toNat) jitter = some delay) :
      Moved cfg s c s { c with
        failures := c.failures + 1
        unhinted := c.unhinted + error.isUnhinted.toNat
        unhintedRetries := c.unhintedRetries + error.isUnhinted.toNat
        pc }
  | reset (hpc : c.pc = .resetting) : Moved cfg s c s { c with pc := .waiting }
  | unreset (hpc : c.pc = .resetting) : Moved cfg s c s { c with pc := .leaving .trace }
  | woken (hpc : c.pc = .waiting) : Moved cfg s c s { c with pc := .acquiring }
  | unwound (hpc : c.pc.isAwait = true) : Moved cfg s c s { c with pc := .leaving .dropped }
  | droppedGuard (exit : Exit) (g : Guard) {u : State} (hpc : c.pc = .leaving exit)
      (hguard : c.guard = some g) (hsettle : s.settle cfg c g g.dropCharge = some u) :
      Moved cfg s c u { c with guard := none }
  | droppedPermit (exit : Exit) (hpc : c.pc = .leaving exit) (hguard : c.guard = none)
      (hpermit : c.permit = true) :
      Moved cfg s c { s with slots := s.slots + 1 } { c with permit := false }
  | ended (exit : Exit) (hpc : c.pc = .leaving exit) (hguard : c.guard = none)
      (hpermit : c.permit = false) : Moved cfg s c s { c with pc := .ended exit }

/-- A move that is stored again. -/
def Stored (cfg : Config) (s : State) (t : State) : Prop :=
  ∃ k c u c', s.calls[k]? = some c ∧ Moved cfg s c u c' ∧ t = u.setCall k c'

/-- A move of the call `k` that is stored again. -/
def StoredAt (cfg : Config) (s : State) (k : Nat) (t : State) : Prop :=
  ∃ c u c', s.calls[k]? = some c ∧ Moved cfg s c u c' ∧ t = u.setCall k c'

/-- The call a label is about. -/
def Label.callId : Label → Option Nat
  | .ledger _ | .call _ _ => none
  | .resolved k _ _ | .unresolved k _ | .cancelled k | .acquire k | .reserve k | .emitted k
  | .refused k | .unsent k | .dispatch k | .stream k _ _ | .panicked k _ | .settle k
  | .release k | .retry k _ | .wake k | .unwind k | .leave k => some k

theorem stored_emitted {cfg : Config} {s t : State} {k : Nat} {c : Call}
    (hk : s.calls[k]? = some c) (h : stepEmitted s k c = some t) : StoredAt cfg s k t := by
  unfold stepEmitted at h
  split at h
  · next hpc =>
    obtain ⟨g, hg, rfl⟩ := Option.map_eq_some_iff.mp h
    exact ⟨c, _, _, hk, .started g hpc hg, rfl⟩
  · next result panicked hpc =>
    obtain rfl := Option.some.inj h
    cases panicked with
    | true => exact ⟨c, _, _, hk, .recorded result true _ hpc, rfl⟩
    | false =>
      cases result with
      | response usage => exact ⟨c, _, _, hk, .recorded (.response usage) false _ hpc, rfl⟩
      | failure error => exact ⟨c, _, _, hk, .failed error hpc, rfl⟩
  · next hpc =>
    obtain rfl := Option.some.inj h
    exact ⟨c, _, _, hk, .reset hpc, rfl⟩
  · cases h

theorem stored_refused {cfg : Config} {s t : State} {k : Nat} {c : Call}
    (hk : s.calls[k]? = some c) (h : stepRefused cfg s k c = some t) : StoredAt cfg s k t := by
  unfold stepRefused at h
  split at h
  · next hpc =>
    obtain ⟨g, hg, h⟩ := Option.bind_eq_some_iff.mp h
    obtain ⟨u, hu, rfl⟩ := Option.map_eq_some_iff.mp h
    exact ⟨c, u, _, hk, .unstarted g hpc hg hu, rfl⟩
  · next result panicked hpc =>
    obtain rfl := Option.some.inj h
    exact ⟨c, _, _, hk, .recorded result panicked _ hpc, rfl⟩
  · next hpc =>
    obtain rfl := Option.some.inj h
    exact ⟨c, _, _, hk, .unreset hpc, rfl⟩
  · cases h

theorem stored_retry {cfg : Config} {s t : State} {k : Nat} {c : Call} {jitter : Nat → Nat}
    (hk : s.calls[k]? = some c) (h : stepRetry cfg s k c jitter = some t) :
    StoredAt cfg s k t := by
  unfold stepRetry at h
  split at h
  · next error hpc =>
    obtain rfl := Option.some.inj h
    cases hdelay : cfg.retry.nextDelay error (c.failures + 1)
        (c.unhinted + error.isUnhinted.toNat) jitter with
    | none =>
      exact ⟨c, s, _, hk, .gaveUp error (c.unhinted + error.isUnhinted.toNat) hpc
        (Nat.le_add_right _ _), rfl⟩
    | some delay =>
      refine ⟨c, s, _, hk, .retried error jitter delay
        (if c.isPartial then .resetting else .waiting) hpc ?_ hdelay, rfl⟩
      split
      · exact Or.inl rfl
      · exact Or.inr rfl
  · cases h

theorem stored_leave {cfg : Config} {s t : State} {k : Nat} {c : Call}
    (hk : s.calls[k]? = some c) (h : stepLeave cfg s k c = some t) : StoredAt cfg s k t := by
  unfold stepLeave at h
  split at h
  · next exit hpc =>
    split at h
    · next g hg =>
      obtain ⟨u, hu, rfl⟩ := Option.map_eq_some_iff.mp h
      exact ⟨c, u, _, hk, .droppedGuard exit g hpc hg hu, rfl⟩
    · next hg =>
      split at h
      · next hpermit =>
        obtain rfl := Option.some.inj h
        exact ⟨c, _, _, hk, .droppedPermit exit hpc hg hpermit, rfl⟩
      · next hpermit =>
        obtain rfl := Option.some.inj h
        exact ⟨c, _, _, hk, .ended exit hpc hg (by simpa using hpermit), rfl⟩
  · cases h

/-- Every step but a call on the ledger and a new model call stores a move of
    the call its label names. -/
theorem stored_of_step {cfg : Config} {s t : State} {l : Label} (h : step cfg s l = some t)
    (hledger : ∀ l', l ≠ .ledger l') (hcall : ∀ node maxTokens, l ≠ .call node maxTokens) :
    ∃ k, l.callId = some k ∧ StoredAt cfg s k t := by
  -- Most labels test where the call stands and store it again.
  have hif : ∀ {k : Nat} {p : Call → Prop} [DecidablePred p] {f : Call → State},
      (s.calls[k]?).bind (fun c => if p c then some (f c) else none) = some t →
      ∃ c, s.calls[k]? = some c ∧ p c ∧ t = f c := by
    intro k p hp f hbind
    obtain ⟨c, hc, hite⟩ := Option.bind_eq_some_iff.mp hbind
    split at hite
    · next hpc => exact ⟨c, hc, hpc, (Option.some.inj hite).symm⟩
    · cases hite
  cases l with
  | ledger l' => exact absurd rfl (hledger l')
  | call node maxTokens => exact absurd rfl (hcall node maxTokens)
  | resolved k limit prompt =>
    obtain ⟨c, hc, hpc, rfl⟩ := hif h
    exact ⟨k, rfl, c, s, _, hc, .resolved limit prompt hpc, rfl⟩
  | unresolved k error =>
    obtain ⟨c, hc, hpc, rfl⟩ := hif h
    exact ⟨k, rfl, c, s, _, hc, .unresolved error hpc, rfl⟩
  | cancelled k =>
    obtain ⟨c, hc, hpc, rfl⟩ := hif h
    exact ⟨k, rfl, c, s, _, hc, .cancelled hpc, rfl⟩
  | acquire k =>
    obtain ⟨c, hc, h⟩ := Option.bind_eq_some_iff.mp h
    split at h
    · next hpc =>
      obtain ⟨slots, hslots, rfl⟩ := Option.map_eq_some_iff.mp h
      obtain ⟨hle, rfl⟩ := checkedSub_eq_some.mp hslots
      exact ⟨k, rfl, c, _, _, hc, .acquired hpc hle, rfl⟩
    · cases h
  | reserve k =>
    obtain ⟨c, hc, h⟩ := Option.bind_eq_some_iff.mp h
    split at h
    · next hpc =>
      obtain ⟨⟨ledger, result⟩, hres, rfl⟩ := Option.map_eq_some_iff.mp h
      cases result with
      | ok r => exact ⟨k, rfl, c, _, _, hc, .reserved ledger r hpc hres, rfl⟩
      | error e => exact ⟨k, rfl, c, _, _, hc, .exhausted ledger e hpc hres, rfl⟩
    · cases h
  | emitted k =>
    obtain ⟨c, hc, h⟩ := Option.bind_eq_some_iff.mp h
    exact ⟨k, rfl, stored_emitted hc h⟩
  | refused k =>
    obtain ⟨c, hc, h⟩ := Option.bind_eq_some_iff.mp h
    exact ⟨k, rfl, stored_refused hc h⟩
  | unsent k =>
    obtain ⟨c, hc, hpc, rfl⟩ := hif h
    exact ⟨k, rfl, c, s, _, hc, .unsent hpc, rfl⟩
  | dispatch k =>
    obtain ⟨c, hc, hpc, rfl⟩ := hif h
    exact ⟨k, rfl, c, s, _, hc, .dispatched hpc, rfl⟩
  | stream k result isPartial =>
    obtain ⟨c, hc, hpc, rfl⟩ := hif h
    exact ⟨k, rfl, c, s, _, hc, .streamed result isPartial false hpc, rfl⟩
  | panicked k isPartial =>
    obtain ⟨c, hc, hpc, rfl⟩ := hif h
    exact ⟨k, rfl, c, s, _, hc, .streamed _ isPartial true hpc, rfl⟩
  | settle k =>
    obtain ⟨c, hc, h⟩ := Option.bind_eq_some_iff.mp h
    split at h
    · next result panicked hpc =>
      obtain ⟨g, hg, h⟩ := Option.bind_eq_some_iff.mp h
      obtain ⟨u, hu, rfl⟩ := Option.map_eq_some_iff.mp h
      exact ⟨k, rfl, c, u, _, hc, .settled result panicked g hpc hg hu, rfl⟩
    · cases h
  | release k =>
    obtain ⟨c, hc, h⟩ := Option.bind_eq_some_iff.mp h
    split at h
    · next result panicked hpc =>
      obtain rfl := Option.some.inj h
      exact ⟨k, rfl, c, _, _, hc, .released result panicked hpc, rfl⟩
    · cases h
  | retry k jitter =>
    obtain ⟨c, hc, h⟩ := Option.bind_eq_some_iff.mp h
    exact ⟨k, rfl, stored_retry hc h⟩
  | wake k =>
    obtain ⟨c, hc, hpc, rfl⟩ := hif h
    exact ⟨k, rfl, c, s, _, hc, .woken hpc, rfl⟩
  | unwind k =>
    obtain ⟨c, hc, hpc, rfl⟩ := hif h
    exact ⟨k, rfl, c, s, _, hc, .unwound hpc, rfl⟩
  | leave k =>
    obtain ⟨c, hc, h⟩ := Option.bind_eq_some_iff.mp h
    exact ⟨k, rfl, stored_leave hc h⟩

/-- A step is one of another task on the ledger, a new call, or a move of one
    call. -/
theorem step_cases {cfg : Config} {s t : State} {l : Label} (h : step cfg s l = some t) :
    (∃ l' session, isForeign l' = true ∧ Ledger.step cfg.limits s.session l' = some session ∧
      t = { s with session }) ∨
    (∃ node maxTokens, t = { s with calls := s.calls ++ [.fresh node maxTokens] }) ∨
    Stored cfg s t := by
  cases l with
  | ledger l' =>
    simp only [step] at h
    split at h
    · next hl =>
      obtain ⟨session, hsession, rfl⟩ := Option.map_eq_some_iff.mp h
      exact Or.inl ⟨l', session, hl, hsession, rfl⟩
    · cases h
  | call node maxTokens =>
    obtain rfl := Option.some.inj h
    exact Or.inr (Or.inl ⟨node, maxTokens, rfl⟩)
  | _ =>
    right; right
    obtain ⟨k, -, hstored⟩ := stored_of_step h (fun l' hl => nomatch hl)
      fun node maxTokens hl => nomatch hl
    exact ⟨k, hstored⟩

/-- What settling a guard does. -/
structure Settles (cfg : Config) (s : State) (c : Call) (g : Guard) (charge : Charge)
    (u : State) : Prop where
  calls : u.calls = s.calls
  slots : u.slots = s.slots
  obtained : u.obtained = s.obtained
  log : u.log = s.log ++ [⟨⟨c.node, g.reservation⟩, g.dispatched, charge⟩]
  held : Issued.mk c.node g.reservation ∈ s.session.outstanding
  outstanding : u.session.outstanding =
    s.session.outstanding.erase ⟨c.node, g.reservation⟩
  settled : ∃ result,
    Ledger.settle s.session.ledger g.reservation charge = some (u.session.ledger, result) ∧
    u.session.settled = s.session.settled ++
      [⟨⟨c.node, g.reservation⟩, result.charged, charge.recorded g.reservation.tokens⟩]
  session : Ledger.step cfg.limits s.session
    (.settle ⟨c.node, g.reservation⟩ charge) = some u.session

theorem settles_of_settle {cfg : Config} {s u : State} {c : Call} {g : Guard}
    {charge : Charge} (h : s.settle cfg c g charge = some u) : Settles cfg s c g charge u := by
  obtain ⟨session, hsession, rfl⟩ := Option.map_eq_some_iff.mp h
  have hcall := hsession
  simp only [Ledger.step] at hcall
  split at hcall
  · next hmem =>
    obtain ⟨r, hr, rfl⟩ := Option.map_eq_some_iff.mp hcall
    exact ⟨rfl, rfl, rfl, rfl, hmem, rfl, ⟨r.2, hr, rfl⟩, hsession⟩
  · cases hcall

/-- A move of one call leaves the calls alone until it is stored. -/
theorem Moved.calls {cfg : Config} {s u : State} {c c' : Call} (h : Moved cfg s c u c') :
    u.calls = s.calls := by
  cases h with
  | unstarted g hpc hguard hsettle => exact (settles_of_settle hsettle).calls
  | settled result panicked g hpc hguard hsettle => exact (settles_of_settle hsettle).calls
  | droppedGuard exit g hpc hguard hsettle => exact (settles_of_settle hsettle).calls
  | _ => rfl

/-- A move of a call reserves or settles, or leaves the ledger alone. -/
theorem Moved.session {cfg : Config} {s u : State} {c c' : Call} (h : Moved cfg s c u c') :
    u.session = s.session ∨ ∃ l, isForeign l = false ∧
      Ledger.step cfg.limits s.session l = some u.session := by
  cases h with
  | reserved ledger r hpc hres =>
    refine Or.inr ⟨.reserve c.node c.prompt c.maxTokens, rfl, ?_⟩
    simp only [Ledger.step, hres, Option.map_some]
  | exhausted ledger e hpc hres =>
    refine Or.inr ⟨.reserve c.node c.prompt c.maxTokens, rfl, ?_⟩
    simp only [Ledger.step, hres, Option.map_some]
  | unstarted g hpc hguard hsettle =>
    exact Or.inr ⟨_, rfl, (settles_of_settle hsettle).session⟩
  | settled result panicked g hpc hguard hsettle =>
    exact Or.inr ⟨_, rfl, (settles_of_settle hsettle).session⟩
  | droppedGuard exit g hpc hguard hsettle =>
    exact Or.inr ⟨_, rfl, (settles_of_settle hsettle).session⟩
  | _ => exact Or.inl rfl

/-- A move obtains a reservation only for a call that was admitted. -/
theorem Moved.obtained {cfg : Config} {s u : State} {c c' : Call} (h : Moved cfg s c u c') :
    u.obtained = s.obtained ∨
      ∃ r, c.pc = .admitted ∧ u.obtained = s.obtained ++ [Issued.mk c.node r] := by
  cases h with
  | reserved ledger r hpc hres => exact Or.inr ⟨r, hpc, rfl⟩
  | unstarted g hpc hguard hsettle => exact Or.inl (settles_of_settle hsettle).obtained
  | settled result panicked g hpc hguard hsettle =>
    exact Or.inl (settles_of_settle hsettle).obtained
  | droppedGuard exit g hpc hguard hsettle =>
    exact Or.inl (settles_of_settle hsettle).obtained
  | _ => exact Or.inl rfl

/-- The calls use the ledger as its callers may. -/
theorem session_reachable {cfg : Config} {s : State} (h : (attempts cfg).Reachable s) :
    (Ledger.sessions cfg.limits).Reachable s.session := by
  refine LTS.System.reachable_map State.session rfl (fun s l t hstep => ?_) s h
  rcases step_cases hstep with
    ⟨l', session, -, hl', rfl⟩ | ⟨node, maxTokens, rfl⟩ | ⟨k, c, u, c', -, hmove, rfl⟩
  · exact Or.inr ⟨l', hl'⟩
  · exact Or.inl rfl
  · rcases hmove.session with heq | ⟨l', -, hl'⟩
    · exact Or.inl heq
    · exact Or.inr ⟨l', hl'⟩

end Kyora.Attempts
