import Kyora.Anthropic.Attempt

/-! # Cancellation and timers only cut a stream short

  `Sse.responseStream` is the stream of a response that is neither cancelled nor
  late. Whatever the token, the clock and the connection do, an attempt yields
  what that stream yields, as far as it gets, and ends as it ends unless it is
  cut. Once it is cancelled it reads nothing more.
-/

namespace Kyora.Anthropic.Attempt

open Sse (Event Parser Outcome responseStream drain yieldMapped)

variable {M : Type} {mapEvent : M → Event → Except ProviderError (M × List StreamEvent)} {new : M}
  {config : Config} {s t : State M}

/-! ### What is still to come -/

/-- What the stream that is not cut still comes to, with these events to yield
    first and these chunks to read. -/
def rest (mapEvent : M → Event → Except ProviderError (M × List StreamEvent)) (stream : Stream M)
    (events : List StreamEvent) (more : List (List UInt8)) : Outcome :=
  match yieldMapped events with
  | (yielded, true) => ⟨[], yielded, none⟩
  | (yielded, false) =>
    let outcome := drain mapEvent stream.mapper stream.pending
      fun mapper => responseStream mapEvent mapper stream.parser more
    ⟨[], yielded ++ outcome.yielded, outcome.error⟩

/-- Two outcomes that a consumer cannot tell apart. -/
structure Same (a b : Outcome) : Prop where
  yielded : a.yielded = b.yielded
  error : a.error = b.error

/-- The stream that is not cut goes on as this one, whatever chunks come. -/
def Follows (mapEvent : M → Event → Except ProviderError (M × List StreamEvent)) (new : M)
    (s : State M) (stream : Stream M) (events : List StreamEvent) : Prop :=
  ∀ more, Same (responseStream mapEvent new .new (s.received ++ more))
    ⟨[], s.yielded ++ (rest mapEvent stream events more).yielded,
      (rest mapEvent stream events more).error⟩

/-- The stream that is not cut has ended so. -/
def Ended (mapEvent : M → Event → Except ProviderError (M × List StreamEvent)) (new : M)
    (s : State M) (error : Option ProviderError) : Prop :=
  Same (responseStream mapEvent new .new s.received) ⟨[], s.yielded, error⟩

/-- How an attempt stands to the stream that is not cut. -/
def Tracked (mapEvent : M → Event → Except ProviderError (M × List StreamEvent)) (new : M)
    (s : State M) : Prop :=
  match s.phase with
  | .streaming stream => Follows mapEvent new s stream []
  | .yielding stream events => Follows mapEvent new s stream events
  | .ended error => (∃ cut, error = some cut ∧ Cut cut) ∨ Ended mapEvent new s error
  | .dropped => True
  | _ => s.received = [] ∧ s.yielded = []

/-- Nothing is yielded that the stream would not yield. -/
def Kept (mapEvent : M → Event → Except ProviderError (M × List StreamEvent)) (new : M)
    (s : State M) : Prop :=
  ∀ more, s.yielded <+: (responseStream mapEvent new .new (s.received ++ more)).yielded

theorem Follows.kept {stream : Stream M} {events : List StreamEvent}
    (h : Follows mapEvent new s stream events) : Kept mapEvent new s := by
  intro more
  rw [(h more).yielded]
  exact List.prefix_append _ _

variable (mapEvent) in
theorem rest_nil (stream : Stream M) (more : List (List UInt8)) :
    Same (rest mapEvent stream [] more) (drain mapEvent stream.mapper stream.pending
      fun mapper => responseStream mapEvent mapper stream.parser more) :=
  ⟨rfl, rfl⟩

/-! ### Steps -/

theorem yieldMapped_stop {event : StreamEvent} (hstop : isStop event = true)
    (events : List StreamEvent) : yieldMapped (event :: events) = ([event], true) := by
  cases event with
  | messageStop => rfl
  | _ => cases hstop

theorem yieldMapped_go {event : StreamEvent} (hstop : isStop event = false)
    (events : List StreamEvent) :
    yieldMapped (event :: events) = (event :: (yieldMapped events).1, (yieldMapped events).2) := by
  cases event with
  | messageStop => cases hstop
  | _ => rfl

variable (mapEvent) in
/-- Yielding moves an event from what is to come to what has come. -/
theorem rest_yield {event : StreamEvent} (hstop : isStop event = false) (stream : Stream M)
    (events : List StreamEvent) (more : List (List UInt8)) :
    Same (rest mapEvent stream (event :: events) more)
      ⟨[], event :: (rest mapEvent stream events more).yielded,
        (rest mapEvent stream events more).error⟩ := by
  unfold rest
  rw [yieldMapped_go hstop]
  obtain ⟨yielded, stop⟩ := yieldMapped events
  cases stop with
  | true => exact ⟨rfl, rfl⟩
  | false => exact ⟨rfl, rfl⟩

theorem rest_stop {event : StreamEvent} (hstop : isStop event = true) (stream : Stream M)
    (events : List StreamEvent) (more : List (List UInt8)) :
    rest mapEvent stream (event :: events) more = ⟨[], [event], none⟩ := by
  unfold rest
  rw [yieldMapped_stop hstop]

/-- A mapped event is yielded before the pending ones behind it. -/
theorem rest_map {stream : Stream M} {event : Event} {pending : List Event} {mapper : M}
    {events : List StreamEvent} (hpending : stream.pending = event :: pending)
    (hmap : mapEvent stream.mapper event = .ok (mapper, events)) (more : List (List UInt8)) :
    Same (rest mapEvent stream [] more)
      (rest mapEvent { stream with mapper, pending } events more) := by
  have hdrain := rest_nil mapEvent stream more
  rw [hpending, drain, hmap] at hdrain
  dsimp only at hdrain
  refine ⟨hdrain.yielded.trans ?_, hdrain.error.trans ?_⟩
  · unfold rest
    cases yieldMapped events with
    | mk yielded stop => cases stop <;> rfl
  · unfold rest
    cases yieldMapped events with
    | mk yielded stop => cases stop <;> rfl

theorem Follows.of_same {t : State M} {stream stream' : Stream M}
    {events events' : List StreamEvent} (h : Follows mapEvent new s stream events)
    (hreceived : t.received = s.received)
    (hsame : ∀ more, Same
      ⟨[], s.yielded ++ (rest mapEvent stream events more).yielded,
        (rest mapEvent stream events more).error⟩
      ⟨[], t.yielded ++ (rest mapEvent stream' events' more).yielded,
        (rest mapEvent stream' events' more).error⟩) :
    Follows mapEvent new t stream' events' := by
  intro more
  rw [hreceived]
  exact ⟨(h more).yielded.trans (hsame more).yielded, (h more).error.trans (hsame more).error⟩

/-- An attempt that ends follows the stream to its end. -/
theorem Follows.ended {t : State M} {stream : Stream M} {events : List StreamEvent}
    {error : Option ProviderError} (h : Follows mapEvent new s stream events)
    (more : List (List UInt8))
    (hreceived : t.received = s.received ++ more)
    (hyielded : t.yielded = s.yielded ++ (rest mapEvent stream events more).yielded)
    (herror : error = (rest mapEvent stream events more).error) :
    Ended mapEvent new t error := by
  have hend := h more
  rw [← hreceived, ← hyielded, ← herror] at hend
  exact hend

theorem tracked_step (h : Tracked mapEvent new s) (hmove : Moves mapEvent new config s t) :
    Tracked mapEvent new t := by
  cases hmove with
  | around cancelled now => exact h
  | fail error hfails =>
    cases hfails with
    | unsent reason hphase =>
      unfold Tracked at h
      rcases hphase with hphase | ⟨deadline, hphase⟩ <;> rw [hphase] at h <;> exact h
    | sent error hcut hphase =>
      unfold Tracked at h
      rcases hphase with hphase | ⟨deadline, hphase⟩ <;> rw [hphase] at h <;> exact h
    | refused deadline idleDeadline status retryAfter value hphase =>
      unfold Tracked at h
      rw [hphase] at h
      exact h
  | send deadline hphase =>
    unfold Tracked at h
    rw [hphase] at h
    exact h
  | dispatch deadline hphase =>
    unfold Tracked at h
    rw [hphase] at h
    unfold Tracked
    dsimp only
    rw [hphase]
    exact h
  | refuse deadline idleDeadline status retryAfter hphase =>
    unfold Tracked at h
    rw [hphase] at h
    exact h
  | respond deadline hphase =>
    unfold Tracked at h
    rw [hphase] at h
    exact h
  | listen deadline idleDeadline hphase =>
    unfold Tracked at h
    rw [hphase] at h
    obtain ⟨hreceived, hyielded⟩ := h
    intro more
    show Same (responseStream mapEvent new .new (s.received ++ more)) _
    rw [hreceived, hyielded]
    exact ⟨rfl, rfl⟩
  | cut stream error hphase hcut => exact .inl ⟨error, rfl, hcut⟩
  | unmapped stream event pending error hphase _ hpending hmap =>
    unfold Tracked at h
    rw [hphase] at h
    right
    have hdrain := rest_nil mapEvent stream []
    rw [hpending, drain, hmap] at hdrain
    refine Follows.ended h [] (List.append_nil _).symm ?_ hdrain.error.symm
    rw [hdrain.yielded, List.append_nil]
  | map stream event pending mapper events hphase _ hpending hmap =>
    unfold Tracked at h
    rw [hphase] at h
    refine Follows.of_same h rfl fun more => ?_
    have hmapped := rest_map hpending hmap more
    exact ⟨congrArg (s.yielded ++ ·) hmapped.yielded, hmapped.error⟩
  | eof stream hphase _ hpending =>
    unfold Tracked at h
    rw [hphase] at h
    right
    have hdrain := rest_nil mapEvent stream []
    rw [hpending, drain, responseStream] at hdrain
    refine Follows.ended h [] (List.append_nil _).symm ?_ hdrain.error.symm
    rw [hdrain.yielded, List.append_nil]
  | invalid stream bytes error hphase _ hpending hfeed =>
    unfold Tracked at h
    rw [hphase] at h
    right
    have hdrain := rest_nil mapEvent stream [bytes]
    rw [hpending, drain, responseStream, hfeed] at hdrain
    refine Follows.ended h [bytes] rfl ?_ hdrain.error.symm
    rw [hdrain.yielded, List.append_nil]
  | data stream bytes parser events idleDeadline hphase _ hpending hfeed =>
    unfold Tracked at h
    rw [hphase] at h
    intro more
    have hall := h (bytes :: more)
    have hdrain := rest_nil mapEvent stream (bytes :: more)
    rw [hpending, drain, responseStream, hfeed] at hdrain
    show Same (responseStream mapEvent new .new (s.received ++ [bytes] ++ more)) _
    rw [List.append_assoc]
    refine ⟨hall.yielded.trans ?_, hall.error.trans hdrain.error⟩
    exact congrArg (s.yielded ++ ·) hdrain.yielded
  | yield stream event events hphase hstop =>
    unfold Tracked at h
    rw [hphase] at h
    refine Follows.of_same h rfl fun more => ?_
    have hnext := rest_yield mapEvent hstop stream events more
    refine ⟨?_, hnext.error⟩
    show s.yielded ++ _ = (s.yielded ++ [event]) ++ _
    rw [hnext.yielded, List.append_assoc]
    rfl
  | stop stream event events hphase hstop =>
    unfold Tracked at h
    rw [hphase] at h
    right
    refine Follows.ended h [] (List.append_nil _).symm ?_ ?_
    · rw [rest_stop hstop]
    · rw [rest_stop hstop]
  | resume stream hphase =>
    unfold Tracked at h
    rw [hphase] at h
    exact h
  | drop => exact trivial

theorem kept_step (h : Kept mapEvent new s) (htracked : Tracked mapEvent new s)
    (hmove : Moves mapEvent new config s t) : Kept mapEvent new t := by
  cases hmove with
  | yield stream event events hphase hstop =>
    have hmove : Moves mapEvent new config s _ := .yield stream event events hphase hstop
    have hnext := tracked_step htracked hmove
    exact Follows.kept hnext
  | stop stream event events hphase hstop =>
    unfold Tracked at htracked
    rw [hphase] at htracked
    intro more
    rw [(htracked more).yielded, rest_stop hstop]
  | data stream bytes =>
    intro more
    show s.yielded <+: (responseStream mapEvent new .new (s.received ++ [bytes] ++ more)).yielded
    rw [List.append_assoc]
    exact h ([bytes] ++ more)
  | invalid stream bytes =>
    intro more
    show s.yielded <+: (responseStream mapEvent new .new (s.received ++ [bytes] ++ more)).yielded
    rw [List.append_assoc]
    exact h ([bytes] ++ more)
  | around => exact h
  | fail => exact h
  | send => exact h
  | dispatch => exact h
  | refuse => exact h
  | respond => exact h
  | listen => exact h
  | cut => exact h
  | unmapped => exact h
  | map => exact h
  | eof => exact h
  | resume => exact h
  | drop => exact h

def testConfig : Config := ⟨300, 1800, "key"⟩

/-- A mapper for which every event stops the message. -/
def stopMapper (_ : Unit) (_ : Event) : Except ProviderError (Unit × List StreamEvent) :=
  .ok ((), [.messageStop])

/-- A response of one event. -/
def stopRun : List Label :=
  [.begin none, .dispatch, .execute (some (.ok .success)), .listen,
    .poll (some (.data [100, 97, 116, 97, 58, 10, 10])), .poll none, .yield]

/-- The attempt after it. -/
def stopped : State Unit :=
  ⟨false, 0, true, .ended none, [[100, 97, 116, 97, 58, 10, 10]], [.messageStop]⟩

/-- The events that are mapped and not yielded. -/
def Phase.batch : Phase M → List StreamEvent
  | .yielding _ events => events
  | _ => []

def Phase.isEnded : Phase M → Bool
  | .ended _ => true
  | _ => false

/-- What has become of an attempt that was cancelled in `s`. -/
structure Stopping (s t : State M) : Prop where
  cancelled : t.cancelled = true
  received : t.received = s.received
  /-- Only what was mapped is yielded. -/
  batch : ∃ taken, t.yielded = s.yielded ++ taken ∧ taken ++ t.phase.batch <+: s.phase.batch
  ended : ∀ error, t.phase = .ended error → s.phase = .ended error ∨ error = some .cancelled ∨
    error = none ∧ ∃ event ∈ s.phase.batch, isStop event = true

theorem Stopping.refl (h : s.cancelled = true) : Stopping s s where
  cancelled := h
  received := rfl
  batch := ⟨[], (List.append_nil _).symm, List.prefix_refl _⟩
  ended := fun _ hphase => .inl hphase

/-- A step that yields nothing and ends nothing. -/
theorem Stopping.quiet {u : State M} (h : Stopping s t) (hcancelled : u.cancelled = true)
    (hreceived : u.received = t.received) (hyielded : u.yielded = t.yielded)
    (hphase : u.phase = t.phase ∨ u.phase.batch = [] ∧ u.phase.isEnded = false) :
    Stopping s u where
  cancelled := hcancelled
  received := hreceived.trans h.received
  batch := by
    obtain ⟨taken, htaken, hbatch⟩ := h.batch
    refine ⟨taken, hyielded.trans htaken, ?_⟩
    rcases hphase with hphase | ⟨hphase, -⟩
    · rw [hphase]
      exact hbatch
    · rw [hphase, List.append_nil]
      exact (List.prefix_append _ _).trans hbatch
  ended := by
    intro error hended
    rcases hphase with hphase | ⟨-, hphase⟩
    · exact h.ended error (hphase.symm.trans hended)
    · rw [hended] at hphase
      cases hphase

theorem stopping_step {u : State M} (h : Stopping s t) (hmove : Moves mapEvent new config t u) :
    Stopping s u := by
  have hyes := h.cancelled
  cases hmove with
  | around cancelled now hcancelled => exact h.quiet (hcancelled hyes) rfl rfl (.inl rfl)
  | fail => exact h.quiet hyes rfl rfl (.inr ⟨rfl, rfl⟩)
  | send => exact h.quiet hyes rfl rfl (.inr ⟨rfl, rfl⟩)
  | dispatch => exact h.quiet hyes rfl rfl (.inl rfl)
  | refuse => exact h.quiet hyes rfl rfl (.inr ⟨rfl, rfl⟩)
  | respond => exact h.quiet hyes rfl rfl (.inr ⟨rfl, rfl⟩)
  | listen => exact h.quiet hyes rfl rfl (.inr ⟨rfl, rfl⟩)
  | resume => exact h.quiet hyes rfl rfl (.inr ⟨rfl, rfl⟩)
  | drop => exact h.quiet hyes rfl rfl (.inr ⟨rfl, rfl⟩)
  | cut stream error hphase hcut hcancelled =>
    obtain ⟨taken, htaken, hbatch⟩ := h.batch
    refine ⟨hyes, h.received, ⟨taken, htaken, ?_⟩, fun other hother => ?_⟩
    · rw [hphase] at hbatch
      exact hbatch
    · cases hother
      exact .inr (.inl (congrArg some (hcancelled hyes)))
  -- a cancelled stream takes no event and no chunk
  | unmapped stream event pending error _ hno => cases hno.symm.trans hyes
  | map stream event pending mapper events _ hno => cases hno.symm.trans hyes
  | eof stream _ hno => cases hno.symm.trans hyes
  | invalid stream bytes error _ hno => cases hno.symm.trans hyes
  | data stream bytes parser events idleDeadline _ hno => cases hno.symm.trans hyes
  | yield stream event events hphase hstop =>
    obtain ⟨taken, htaken, hbatch⟩ := h.batch
    rw [hphase] at hbatch
    refine ⟨hyes, h.received, ⟨taken ++ [event], ?_, ?_⟩, fun other hother => ?_⟩
    · show t.yielded ++ [event] = _
      rw [htaken, List.append_assoc]
    · show taken ++ [event] ++ events <+: _
      rw [List.append_assoc]
      exact hbatch
    · cases hother
  | stop stream event events hphase hstop =>
    obtain ⟨taken, htaken, hbatch⟩ := h.batch
    rw [hphase] at hbatch
    have hmem : event ∈ s.phase.batch :=
      hbatch.subset (List.mem_append_right _ List.mem_cons_self)
    refine ⟨hyes, h.received, ⟨taken ++ [event], ?_, ?_⟩, fun other hother => ?_⟩
    · show t.yielded ++ [event] = _
      rw [htaken, List.append_assoc]
    · show taken ++ [event] ++ [] <+: _
      rw [List.append_nil]
      refine List.IsPrefix.trans ⟨events, ?_⟩ hbatch
      rw [List.append_assoc]
      rfl
    · cases hother
      exact .inr (.inr ⟨rfl, event, hmem, hstop⟩)

/-- From its cancellation on an attempt reads nothing, yields only events that were
    mapped before, in order, and ends as cancelled unless one of them is a
    message stop. -/
theorem attempt_cancelled (mapEvent : M → Event → Except ProviderError (M × List StreamEvent))
    (new : M) (config : Config) {ls : List Label} (hcancelled : s.cancelled = true)
    (hrun : (system mapEvent new config).run s ls = some t) :
    t.received = s.received ∧
      (∃ taken, t.yielded = s.yielded ++ taken ∧ taken <+: s.phase.batch) ∧
      ∀ error, t.phase = .ended error → s.phase = .ended error ∨ error = some .cancelled ∨
        error = none ∧ ∃ event ∈ s.phase.batch, isStop event = true := by
  have h : Stopping s t := LTS.System.run_invariant _ (P := Stopping s)
    (fun _ _ _ h hstep => stopping_step h (moves hstep)) (.refl hcancelled) hrun
  obtain ⟨taken, htaken, hbatch⟩ := h.batch
  exact ⟨h.received, ⟨taken, htaken, (List.prefix_append _ _).trans hbatch⟩, h.ended⟩

/-- A stop that was mapped is yielded after the cancellation. -/
theorem attempt_cancelled_stop : ∃ taken,
    stopped.yielded = [] ++ taken ∧ taken <+: [StreamEvent.messageStop] := by
  have hrun : (system stopMapper () testConfig).run
      ⟨true, 0, true, .yielding ⟨1800, 300, .new, (), []⟩ [.messageStop], [], []⟩ [.yield] =
        some { stopped with cancelled := true, received := [] } := rfl
  exact (attempt_cancelled stopMapper () testConfig rfl hrun).2.1

end Kyora.Anthropic.Attempt
