import Kyora.Framework.System

/-! # Sessions of an HTTP server

  The client keeps the session its server assigned until a DELETE answers, and
  deletes a session that is left over when it closes, or that arrives later, by
  a task of its own. Calls run on any thread: `remember`, `forget` and `close`
  each hold the lock once, and a task is spawned after the lock is released.

  The slot keeps one session. A second one that the server assigns before the
  client closes replaces the first, which nobody deletes then. And a DELETE that
  answers between the lock of a call and its spawn comes too late to stop the
  second DELETE.
-/

namespace Kyora.Mcp

/-! ### The slot -/

/-- The session the server assigned, and whether cleanup has already started. -/
structure SessionSlot where
  session : Option String
  closed : Bool
  deriving DecidableEq, Repr

namespace SessionSlot

/-- `HttpClient::remember` under the lock: the slot, and the session to delete
    right away. -/
def remember (slot : SessionSlot) (session : String) : SessionSlot × Option String :=
  if slot.closed then (slot, some session) else ({ slot with session := some session }, none)

/-- `HttpClient::forget`. -/
def forget (slot : SessionSlot) (session : String) : SessionSlot :=
  if slot.session = some session then { slot with session := none } else slot

/-- `HttpClient::close` under the lock: the slot, and the session to delete. -/
def close (slot : SessionSlot) : SessionSlot × Option String :=
  (⟨none, true⟩, slot.session)

end SessionSlot

/-! ### The client -/

inductive SessionEvent where
  /-- A response announced the session. -/
  | announced (session : String)
  /-- The DELETE of `delete_session` was answered. -/
  | forgotten (session : String)
  /-- A DELETE was spawned. -/
  | spawned (session : String)
  /-- No runtime was there to spawn it on. -/
  | dropped (session : String)
  deriving DecidableEq, Repr

/-- The slot, the sessions that calls are about to delete, and what happened. -/
structure Client where
  slot : SessionSlot
  pending : List String
  log : List SessionEvent
  deriving DecidableEq, Repr

inductive SessionLabel where
  /-- A response announces a session id. -/
  | remember (session : String)
  /-- `delete_session` is answered. Without an answer it changes nothing. -/
  | forget (session : String)
  | close
  /-- A call goes on to `spawn_delete`, inside a runtime or not. -/
  | spawn (session : String) (runtime : Bool)
  deriving DecidableEq, Repr

namespace Client

def step (s : Client) : SessionLabel → Option Client
  | .remember session =>
    let (slot, late) := s.slot.remember session
    some ⟨slot, s.pending ++ late.toList, s.log ++ [.announced session]⟩
  | .forget session =>
    some { s with slot := s.slot.forget session, log := s.log ++ [.forgotten session] }
  | .close =>
    let (slot, session) := s.slot.close
    some { s with slot, pending := s.pending ++ session.toList }
  | .spawn session runtime =>
    if session ∈ s.pending then
      some { s with
        pending := s.pending.erase session
        log := s.log ++ [if runtime then .spawned session else .dropped session] }
    else none

def system : LTS.System Client SessionLabel := ⟨⟨⟨none, false⟩, [], []⟩, step⟩

end Client

/-! ### What a log says -/

/-- Forgotten after its last announcement. -/
def forgotten (session : String) (log : List SessionEvent) : Bool :=
  log.foldl (fun was event =>
    if event = .announced session then false
    else if event = .forgotten session then true
    else was) false

/-- A DELETE was spawned after the session had been forgotten and before it was
    announced again. -/
def Superfluous (session : String) (log : List SessionEvent) : Prop :=
  ∃ n, log[n]? = some (.spawned session) ∧ forgotten session (log.take n) = true

theorem forgotten_concat (session : String) (log : List SessionEvent) (event : SessionEvent) :
    forgotten session (log ++ [event]) =
      if event = .announced session then false
      else if event = .forgotten session then true
      else forgotten session log := by
  simp only [forgotten, List.foldl_append, List.foldl_cons, List.foldl_nil]

@[simp] theorem forgotten_announced (session other : String) (log : List SessionEvent) :
    forgotten session (log ++ [.announced other]) =
      if other = session then false else forgotten session log := by
  simp [forgotten_concat]

@[simp] theorem forgotten_forgotten (session other : String) (log : List SessionEvent) :
    forgotten session (log ++ [.forgotten other]) =
      if other = session then true else forgotten session log := by
  simp [forgotten_concat]

@[simp] theorem forgotten_spawn (session other : String) (log : List SessionEvent)
    (runtime : Bool) :
    forgotten session (log ++ [if runtime then .spawned other else .dropped other]) =
      forgotten session log := by
  cases runtime <;> simp [forgotten_concat]

theorem superfluous_concat {session : String} {log : List SessionEvent} {event : SessionEvent}
    (h : Superfluous session (log ++ [event])) :
    Superfluous session log ∨ event = .spawned session ∧ forgotten session log = true := by
  obtain ⟨n, hn, hforgotten⟩ := h
  rcases Nat.lt_trichotomy n log.length with hlt | heq | hgt
  · left
    rw [List.getElem?_append_left hlt] at hn
    rw [List.take_append_of_le_length (Nat.le_of_lt hlt)] at hforgotten
    exact ⟨n, hn, hforgotten⟩
  · right
    rw [heq, List.getElem?_concat_length, Option.some.injEq] at hn
    rw [heq, List.take_left] at hforgotten
    exact ⟨hn, hforgotten⟩
  · rw [List.getElem?_eq_none (by rw [List.length_append, List.length_singleton]; omega)] at hn
    exact absurd hn (Option.some_ne_none _).symm

/-! ### Orderly steps -/

/-- No session replaces another one, and no DELETE answers for a session that a
    call is about to delete. -/
def Orderly (s : Client) : SessionLabel → Prop
  | .remember session =>
    s.slot.closed = true ∨ s.slot.session = none ∨ s.slot.session = some session
  | .forget session => session ∉ s.pending
  | .close => True
  | .spawn _ _ => True

instance (s : Client) : (l : SessionLabel) → Decidable (Orderly s l)
  | .remember session =>
    inferInstanceAs (Decidable (_ ∨ s.slot.session = none ∨ s.slot.session = some session))
  | .forget session => inferInstanceAs (Decidable (session ∉ s.pending))
  | .close => .isTrue trivial
  | .spawn _ _ => .isTrue trivial

/-! ### Runs of orderly steps -/

/-- Where a session is that was announced. -/
def Client.Covered (s : Client) (session : String) : Prop :=
  forgotten session s.log = true ∨ .spawned session ∈ s.log ∨ .dropped session ∈ s.log ∨
    session ∈ s.pending ∨ s.slot.session = some session

structure Client.Sound (s : Client) : Prop where
  closed : s.slot.closed = true → s.slot.session = none
  slot : ∀ session, s.slot.session = some session → forgotten session s.log = false
  pending : ∀ session ∈ s.pending, forgotten session s.log = false
  covered : ∀ session, .announced session ∈ s.log → s.Covered session
  clean : ∀ session, ¬Superfluous session s.log

namespace Client.Sound

variable {s t : Client} {session : String}

theorem init : system.init.Sound where
  closed := fun _ => rfl
  slot := fun _ h => absurd h (Option.some_ne_none _).symm
  pending := fun _ h => absurd h List.not_mem_nil
  covered := fun _ h => absurd h List.not_mem_nil
  clean := fun _ ⟨n, hn, _⟩ => absurd hn (by simp [system])

/-- A session stays covered if its place in the slot or with a call does. -/
theorem covered_next (h : s.Sound) (hbefore : .announced session ∈ s.log)
    (hforgotten : forgotten session s.log = true → forgotten session t.log = true)
    (hlog : s.log ⊆ t.log) (hpending : session ∈ s.pending → t.Covered session)
    (hslot : s.slot.session = some session → t.Covered session) : t.Covered session := by
  rcases h.covered session hbefore with hf | hs | hd | hp | hheld
  · exact .inl (hforgotten hf)
  · exact .inr (.inl (hlog hs))
  · exact .inr (.inr (.inl (hlog hd)))
  · exact hpending hp
  · exact hslot hheld

/-- The log holds what was announced before. -/
theorem announced_before {event : SessionEvent} {log : List SessionEvent}
    (h : .announced session ∈ log ++ [event]) (hne : event ≠ .announced session) :
    .announced session ∈ log := by
  rcases List.mem_append.mp h with h | h
  · exact h
  · exact absurd (List.mem_singleton.mp h).symm hne

/-- Only a spawn can be superfluous. -/
theorem clean_concat (h : s.Sound) {event : SessionEvent}
    (hevent : ∀ session, event = .spawned session → forgotten session s.log = false) :
    ∀ session, ¬Superfluous session (s.log ++ [event]) := by
  intro session hsuperfluous
  rcases superfluous_concat hsuperfluous with hbefore | ⟨heq, hforgotten⟩
  · exact h.clean session hbefore
  · rw [hevent session heq] at hforgotten
    exact Bool.false_ne_true hforgotten

/-- Before the client closes the slot keeps the session. -/
theorem remember (h : s.Sound) (hclosed : s.slot.closed = false)
    (horderly : s.slot.session = none ∨ s.slot.session = some session) :
    (⟨⟨some session, s.slot.closed⟩, s.pending, s.log ++ [.announced session]⟩ :
      Client).Sound where
  closed := fun hclosed' => absurd (hclosed.symm.trans hclosed') Bool.false_ne_true
  slot := by
    intro other hother
    rw [forgotten_announced, if_pos (Option.some.inj hother)]
  pending := by
    intro other hother
    rw [forgotten_announced, h.pending other hother, ite_self]
  covered := by
    intro other hother
    by_cases heq : session = other
    · exact .inr (.inr (.inr (.inr (congrArg some heq))))
    · -- The slot held no other session, so the others are covered elsewhere.
      have hslot : s.slot.session ≠ some other := by
        rcases horderly with hnone | hsome
        · rw [hnone]
          exact (Option.some_ne_none _).symm
        · rw [hsome]
          exact fun h => heq (Option.some.inj h)
      apply h.covered_next (announced_before hother fun h => heq (SessionEvent.announced.inj h))
      · rw [forgotten_announced, if_neg heq]
        exact id
      · exact List.subset_append_left _ _
      · exact fun hp => .inr (.inr (.inr (.inl hp)))
      · exact fun hheld => absurd hheld hslot
  clean := h.clean_concat fun _ heq => SessionEvent.noConfusion heq

/-- After it closed the call deletes the session. -/
theorem remember_late (h : s.Sound) (hclosed : s.slot.closed = true) :
    (⟨s.slot, s.pending ++ [session], s.log ++ [.announced session]⟩ : Client).Sound where
  closed := h.closed
  slot := by
    intro other hother
    rw [h.closed hclosed] at hother
    exact absurd hother (Option.some_ne_none _).symm
  pending := by
    intro other hother
    rw [forgotten_announced]
    rcases List.mem_append.mp hother with hother | hother
    · rw [h.pending other hother, ite_self]
    · rw [if_pos (List.mem_singleton.mp hother).symm]
  covered := by
    intro other hother
    by_cases heq : session = other
    · refine .inr (.inr (.inr (.inl (List.mem_append_right _ ?_))))
      rw [heq]
      exact List.mem_singleton_self _
    · apply h.covered_next (announced_before hother fun h => heq (SessionEvent.announced.inj h))
      · rw [forgotten_announced, if_neg heq]
        exact id
      · exact List.subset_append_left _ _
      · exact fun hp => .inr (.inr (.inr (.inl (List.mem_append_left _ hp))))
      · exact fun hheld => .inr (.inr (.inr (.inr hheld)))
  clean := h.clean_concat fun _ heq => SessionEvent.noConfusion heq

theorem forget (h : s.Sound) (horderly : session ∉ s.pending) :
    ({ s with slot := s.slot.forget session, log := s.log ++ [.forgotten session] } :
      Client).Sound := by
  -- The slot holds what it held, unless that is forgotten.
  have hslot {other : String} (hne : session ≠ other) :
      (s.slot.forget session).session = some other ↔ s.slot.session = some other := by
    rw [SessionSlot.forget]
    split
    · next hheld =>
      rw [hheld]
      exact ⟨fun h => absurd h (Option.some_ne_none _).symm,
        fun h => absurd (Option.some.inj h) hne⟩
    · exact Iff.rfl
  have hself : (s.slot.forget session).session ≠ some session := by
    rw [SessionSlot.forget]
    split
    · exact (Option.some_ne_none _).symm
    · next hheld => exact hheld
  constructor
  · intro hclosed
    show (s.slot.forget session).session = none
    have hbefore : s.slot.closed = true := by
      rw [← hclosed, SessionSlot.forget]
      split <;> rfl
    rw [SessionSlot.forget, h.closed hbefore]
    exact h.closed hbefore
  · intro other hother
    have hne : session ≠ other := fun heq => hself (heq ▸ hother)
    rw [forgotten_forgotten, if_neg hne]
    exact h.slot other ((hslot hne).mp hother)
  · intro other hother
    have hne : session ≠ other := fun heq => horderly (heq ▸ hother)
    rw [forgotten_forgotten, if_neg hne]
    exact h.pending other hother
  · intro other hother
    by_cases heq : session = other
    · left
      rw [forgotten_forgotten, if_pos heq]
    · apply h.covered_next (announced_before hother SessionEvent.noConfusion)
      · rw [forgotten_forgotten, if_neg heq]
        exact id
      · exact List.subset_append_left _ _
      · exact fun hp => .inr (.inr (.inr (.inl hp)))
      · exact fun hheld => .inr (.inr (.inr (.inr ((hslot heq).mpr hheld))))
  · exact h.clean_concat fun _ heq => SessionEvent.noConfusion heq

/-- The session of the slot is one to delete. -/
theorem close (h : s.Sound) :
    ({ s with slot := ⟨none, true⟩, pending := s.pending ++ s.slot.session.toList } :
      Client).Sound where
  closed := fun _ => rfl
  slot := fun _ hother => absurd hother (Option.some_ne_none _).symm
  pending := by
    intro other hother
    rcases List.mem_append.mp hother with hother | hother
    · exact h.pending other hother
    · exact h.slot other (Option.mem_toList.mp hother)
  covered := by
    intro other hother
    apply h.covered_next hother
    · exact id
    · exact List.Subset.refl _
    · exact fun hp => .inr (.inr (.inr (.inl (List.mem_append_left _ hp))))
    · intro hheld
      exact .inr (.inr (.inr (.inl (List.mem_append_right _ (Option.mem_toList.mpr hheld)))))
  clean := h.clean

theorem spawn (h : s.Sound) (hpending : session ∈ s.pending) (runtime : Bool) :
    ({ s with
        pending := s.pending.erase session
        log := s.log ++ [if runtime then .spawned session else .dropped session] } :
      Client).Sound where
  closed := h.closed
  slot := by
    intro other hother
    rw [forgotten_spawn]
    exact h.slot other hother
  pending := by
    intro other hother
    rw [forgotten_spawn]
    exact h.pending other (List.mem_of_mem_erase hother)
  covered := by
    intro other hother
    apply h.covered_next
    · apply announced_before hother
      cases runtime <;> exact SessionEvent.noConfusion
    · rw [forgotten_spawn]
      exact id
    · exact List.subset_append_left _ _
    · intro hp
      by_cases heq : other = session
      · -- The step takes it from the pending ones.
        rw [heq]
        cases runtime with
        | true => exact .inr (.inl (List.mem_append_right _ (List.mem_singleton_self _)))
        | false => exact .inr (.inr (.inl (List.mem_append_right _ (List.mem_singleton_self _))))
      · exact .inr (.inr (.inr (.inl ((List.mem_erase_of_ne heq).mpr hp))))
    · exact fun hheld => .inr (.inr (.inr (.inr hheld)))
  clean := by
    apply h.clean_concat
    intro other heq
    cases runtime with
    | true =>
      rw [← SessionEvent.spawned.inj heq]
      exact h.pending session hpending
    | false => exact SessionEvent.noConfusion heq

theorem step (h : s.Sound) {l : SessionLabel} {t : Client} (horderly : Orderly s l)
    (hstep : s.step l = some t) : t.Sound := by
  cases l with
  | remember session =>
    simp only [Client.step, SessionSlot.remember, Option.some.injEq] at hstep
    rw [← hstep]
    cases hclosed : s.slot.closed with
    | true => exact h.remember_late hclosed
    | false =>
      have hslot := horderly.resolve_left (by rw [hclosed]; exact Bool.false_ne_true)
      have hnext := h.remember hclosed hslot
      rw [hclosed] at hnext
      simpa only [Bool.false_eq_true, if_false, Option.toList_none, List.append_nil] using hnext
  | forget session =>
    rw [← Option.some.inj hstep]
    exact h.forget horderly
  | close =>
    rw [← Option.some.inj hstep]
    exact h.close
  | spawn session runtime =>
    rw [Client.step] at hstep
    by_cases hpending : session ∈ s.pending
    · rw [if_pos hpending, Option.some.injEq] at hstep
      rw [← hstep]
      exact h.spawn hpending runtime
    · rw [if_neg hpending] at hstep
      exact absurd hstep (Option.some_ne_none _).symm

end Client.Sound

theorem sound_of_reachable {s : Client} (h : Client.system.ReachableBy Orderly s) : s.Sound :=
  LTS.System.invariant Client.Sound.init (fun _ _ _ hs horderly hstep => hs.step horderly hstep) s h

/-- After orderly steps, once the client closed and its tasks were spawned, each
    session ever announced was forgotten after its last announcement or passed to
    a spawned DELETE. No DELETE is spawned for a session that was forgotten and
    not announced again. -/
theorem sessions_deleted {s : Client} (h : Client.system.ReachableBy Orderly s) :
    (s.slot.closed = true → s.pending = [] → (∀ session, .dropped session ∉ s.log) →
      ∀ session, .announced session ∈ s.log →
        forgotten session s.log = true ∨ .spawned session ∈ s.log) ∧
    ∀ session, ¬Superfluous session s.log := by
  have hsound := sound_of_reachable h
  refine ⟨?_, hsound.clean⟩
  intro hclosed hpending hdropped session hannounced
  rcases hsound.covered session hannounced with hf | hs | hd | hp | hheld
  · exact .inl hf
  · exact .inr hs
  · exact absurd hd (hdropped session)
  · rw [hpending] at hp
    exact absurd hp List.not_mem_nil
  · rw [hsound.closed hclosed] at hheld
    exact absurd hheld (Option.some_ne_none _).symm

/-- A session deleted by `delete_session`, one deleted by `close`, a late one. -/
theorem sessions_deleted_late :
    ∃ s : Client, Client.system.run Client.system.init
        [.remember "a", .forget "a", .remember "b", .close, .remember "c", .spawn "b" true,
          .spawn "c" true, .forget "b"] = some s ∧
      s.slot.closed = true ∧ s.pending = [] ∧
      (∀ session, .announced session ∈ s.log →
        forgotten session s.log = true ∨ .spawned session ∈ s.log) ∧
      ∀ session, ¬Superfluous session s.log := by
  have hrun : Client.system.runIf (fun s l => decide (Orderly s l)) Client.system.init
      [.remember "a", .forget "a", .remember "b", .close, .remember "c", .spawn "b" true,
        .spawn "c" true, .forget "b"] =
      some ⟨⟨none, true⟩, [], [.announced "a", .forgotten "a", .announced "b", .announced "c",
        .spawned "b", .spawned "c", .forgotten "b"]⟩ := rfl
  have hreach := (LTS.System.RunBy.init.runIf (fun _ _ h => of_decide_eq_true h) hrun).reachableBy
  obtain ⟨hdeleted, hclean⟩ := sessions_deleted hreach
  refine ⟨_, rfl, rfl, rfl, hdeleted rfl rfl ?_, hclean⟩
  intro session
  simp

/-- A second session replaces the first, which no DELETE names then. And a DELETE
    that is answered before the task is spawned is repeated. -/
theorem sessions_leaked :
    (∃ s : Client, Client.system.run Client.system.init
        [.remember "a", .remember "b", .close, .spawn "b" true] = some s ∧
      s.slot.closed = true ∧ s.pending = [] ∧ (∀ session, .dropped session ∉ s.log) ∧
      .announced "a" ∈ s.log ∧ forgotten "a" s.log = false ∧ .spawned "a" ∉ s.log) ∧
    ∃ s : Client, Client.system.run Client.system.init
        [.remember "a", .close, .forget "a", .spawn "a" true] = some s ∧
      Superfluous "a" s.log := by
  refine ⟨⟨_, rfl, rfl, rfl, ?_, by decide, by decide, by decide⟩, _, rfl, 2, rfl, by decide⟩
  intro session
  show .dropped session ∉ [SessionEvent.announced "a", .announced "b", .spawned "b"]
  simp

end Kyora.Mcp
