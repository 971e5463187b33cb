import Kyora.Anthropic.Causes
import Kyora.Anthropic.Cut

/-! # What a failed attempt costs

  A failure is charged nothing when the request was not dispatched, or when the
  server rejected it before it processed anything. Every other failure is
  charged its reservation, since nobody knows what the request used.
-/

namespace Kyora.Anthropic

open Errors (Only)
open Sse (Event)

/-! ### The charge -/

theorem FromEvents.charge {key : String} {e : ProviderError} (h : FromEvents key e) :
    e.charge = .reserved := by
  cases h with
  | utf8 => rfl
  | json => rfl
  | malformed field h => rfl
  | stream kind message => rfl

/-- The statuses of a server that rejected a request before processing it. -/
def Rejected (status : Nat) : Prop := 400 ≤ status ∧ status < 500 ∨ status = 529

theorem ite_charge {large : Prop} [Decidable large] {status : Nat}
    (h : large → status = 400 ∨ status = 413) (message : String) (retryAfter : Option Nat) :
    (if large then ProviderError.contextTooLarge message
      else .http status message retryAfter).charge = .zero ↔ Rejected status := by
  by_cases hlarge : large
  · rw [if_pos hlarge]
    refine ⟨fun _ => ?_, fun _ => rfl⟩
    rcases h hlarge with rfl | rfl
    · exact .inl ⟨by decide, by decide⟩
    · exact .inl ⟨by decide, by decide⟩
  · rw [if_neg hlarge]
    simp only [ProviderError.charge, Rejected]
    by_cases hzero : 400 ≤ status ∧ status < 500 ∨ status = 529
    · rw [if_pos hzero]
      exact ⟨fun _ => hzero, fun _ => rfl⟩
    · rw [if_neg hzero]
      constructor
      · intro hno
        cases hno
      · exact fun hyes => absurd hyes hzero

/-- A refusal is charged nothing exactly for these statuses. -/
theorem http_charge (status : Nat) (retryAfter : Option Nat) (body : Option Json) (key : String) :
    (http status retryAfter body key).charge = .zero ↔ Rejected status :=
  ite_charge (fun h => h.1) _ retryAfter

namespace Attempt

variable {M : Type} {mapEvent : M → Event → Except ProviderError (M × List StreamEvent)} {new : M}
  {config : Config} {s t : State M}

theorem Cut.charge {e : ProviderError} (h : Cut e) : e.charge = .reserved := by
  cases h with
  | cancelled => rfl
  | transport message => rfl
  | idleTimeout => rfl

/-- What an attempt's phase says about the dispatch of its request. -/
def Charged (config : Config) (s : State M) : Prop :=
  match s.phase with
  | .called => s.sendStarted = false
  | .failed error =>
    s.sendStarted = false ∧ (∃ reason, error = .notSent reason) ∨
      s.sendStarted = true ∧ (Cut error ∨
        ∃ status retryAfter value, error = http status retryAfter value config.key)
  | .ended (some error) => s.sendStarted = true ∧ error.charge = .reserved
  | .sending _ | .dropped => True
  | _ => s.sendStarted = true

theorem charged_step
    (hmap : ∀ mapper event, Only (FromEvents config.key) (mapEvent mapper event))
    (h : Charged config s) (hmove : Moves mapEvent new config s t) : Charged config t := by
  unfold Charged at h
  cases hmove with
  | around cancelled now => exact h
  | fail error hfails =>
    cases hfails with
    | unsent reason hphase hsent =>
      refine .inl ⟨?_, reason, rfl⟩
      rcases hsent with hcalled | hsent
      · rw [hcalled] at h
        exact h
      · exact hsent
    | sent error hcut _ hsent => exact .inr ⟨hsent, .inl hcut⟩
    | refused deadline idleDeadline status retryAfter value hphase =>
      rw [hphase] at h
      exact .inr ⟨h, .inr ⟨status, retryAfter, value, rfl⟩⟩
  | send deadline hphase => exact trivial
  | dispatch deadline hphase =>
    unfold Charged
    dsimp only
    rw [hphase]
    exact trivial
  | refuse deadline idleDeadline status retryAfter hphase hsent => exact hsent
  | respond deadline hphase hsent => exact hsent
  | listen deadline idleDeadline hphase =>
    rw [hphase] at h
    exact h
  | cut stream error hphase hcut =>
    rw [hphase] at h
    exact ⟨h, hcut.charge⟩
  | unmapped stream event pending error hphase _ _ herror =>
    rw [hphase] at h
    exact ⟨h, (hmap stream.mapper event error herror).charge⟩
  | map stream event pending mapper events hphase =>
    rw [hphase] at h
    exact h
  | eof stream hphase =>
    rw [hphase] at h
    exact ⟨h, rfl⟩
  | invalid stream bytes error hphase _ _ hfeed =>
    rw [hphase] at h
    have hfed : Only (FromEvents config.key) (stream.parser.feed bytes) := feed_only _ _
    exact ⟨h, (hfed error hfeed).charge⟩
  | data stream bytes parser events idleDeadline hphase =>
    rw [hphase] at h
    exact h
  | yield stream event events hphase =>
    rw [hphase] at h
    exact h
  | stop stream event events hphase =>
    rw [hphase] at h
    exact h
  | resume stream hphase =>
    rw [hphase] at h
    exact h
  | drop => exact trivial

/-- A failed attempt is charged nothing exactly when its request was never
    dispatched or the server answered it with a status of rejection. -/
theorem attempt_charge (fromStr : String → Option Json) (config : Config) :
    ∀ s, (system (fun m => Mapper.mapEvent fromStr config.key m) .new config).Reachable s →
      ∀ error, s.phase = .failed error ∨ s.phase = .ended (some error) →
        (error.charge = .zero ↔ s.sendStarted = false ∨
          ∃ status retryAfter value,
            error = http status retryAfter value config.key ∧ Rejected status) := by
  intro s hs error hphase
  have hcharged : Charged config s := by
    refine LTS.System.invariant (P := Charged config) ?_ ?_ s hs
    · show false = false
      rfl
    intro s l t h _ hstep
    exact charged_step (fun mapper event => mapEvent_only config.key mapper event) h (moves hstep)
  unfold Charged at hcharged
  have hreserved : error.charge = .reserved → s.sendStarted = true →
      (error.charge = .zero ↔ s.sendStarted = false ∨
        ∃ status retryAfter value,
          error = http status retryAfter value config.key ∧ Rejected status) := by
    intro hres hsent
    constructor
    · intro hzero
      cases hzero.symm.trans hres
    · rintro (hno | ⟨status, retryAfter, value, herror, hrejected⟩)
      · cases hno.symm.trans hsent
      · rw [herror]
        exact (http_charge _ _ _ _).mpr hrejected
  rcases hphase with hphase | hphase
  · rw [hphase] at hcharged
    rcases hcharged with ⟨hno, reason, rfl⟩ | ⟨hsent, hcut | ⟨status, retryAfter, value, rfl⟩⟩
    · exact ⟨fun _ => .inl hno, fun _ => rfl⟩
    · exact hreserved hcut.charge hsent
    · rw [http_charge]
      constructor
      · intro hrejected
        exact .inr ⟨status, retryAfter, value, rfl, hrejected⟩
      · rintro (hno | ⟨status', retryAfter', value', herror, hrejected⟩)
        · cases hno.symm.trans hsent
        · rw [← http_charge, herror, http_charge]
          exact hrejected
  · rw [hphase] at hcharged
    exact hreserved hcharged.2 hcharged.1

/-- A connection that cannot be made. -/
theorem attempt_charge_unsent :
    (ProviderError.notSent "connection or request setup failed").charge = .zero := by
  have hrun : (system (fun m => Mapper.mapEvent (fun _ => none) "key" m) .new testConfig).run
      (system (fun m => Mapper.mapEvent (fun _ => none) "key" m) .new testConfig).init
      [.begin none, .execute (some (.error "connection or request setup failed"))] =
        some ⟨false, 0, false, .failed (.notSent "connection or request setup failed"), [], []⟩ :=
    rfl
  exact (attempt_charge (fun _ => none) testConfig _ (LTS.System.reachable_of_run hrun) _
    (.inl rfl)).mpr (.inl rfl)

end Attempt

end Kyora.Anthropic
