import Kyora.Protocol
import Kyora.Sse.Framing
import Mathlib.Data.List.Induction

/-! # The consumer of the parser

  `response_stream` takes the events of a chunk one by one through the mapper
  before it asks for the next chunk. `feed` returns the events of a chunk or an
  error, so where a chunk ends decides whether the events in front of an
  invalid line are seen.
-/

namespace Kyora.Sse

variable {M : Type} (mapEvent : M → Event → Except ProviderError (M × List StreamEvent))

/-! ### The loop -/

/-- What a response stream comes to: the events it took from the parser, what
    it yielded, and the error it ended with, none after a message stop. -/
structure Outcome where
  seen : List Event
  yielded : List StreamEvent
  error : Option ProviderError

/-- An outcome after one more event at its front. -/
def Outcome.after (o : Outcome) (event : Event) (yielded : List StreamEvent) : Outcome :=
  { o with seen := event :: o.seen, yielded := yielded ++ o.yielded }

/-- Yields mapped events up to a message stop, and whether there was one. -/
def yieldMapped : List StreamEvent → List StreamEvent × Bool
  | [] => ([], false)
  | .messageStop :: _ => ([.messageStop], true)
  | event :: events => (event :: (yieldMapped events).1, (yieldMapped events).2)

/-- Takes the pending events, then goes on with `next`. -/
def drain : M → List Event → (M → Outcome) → Outcome
  | m, [], next => next m
  | m, event :: pending, next =>
    match mapEvent m event with
    | .error error => ⟨[event], [], some error⟩
    | .ok (m, events) =>
      match yieldMapped events with
      | (yielded, true) => ⟨[event], yielded, none⟩
      | (yielded, false) => (drain m pending next).after event yielded

/-- `response_stream`, over the chunks of a response that is neither cancelled
    nor late. Its errors come after dispatch, where `classify_dispatch` keeps
    them as they are. -/
def responseStream : M → Parser → List (List UInt8) → Outcome
  | _, _, [] => ⟨[], [], some (.protocol "SSE ended before message_stop")⟩
  | m, p, chunk :: chunks =>
    match p.feed chunk with
    | .error error => ⟨[], [], some error⟩
    | .ok (p, events) => drain mapEvent m events fun m => responseStream m p chunks

/-- Every event that is complete before the first line that is not valid, and
    then the error, however the stream is cut. -/
def expected (m : M) (stream : List UInt8) : Outcome :=
  drain mapEvent m (reference stream) fun _ =>
    ⟨[], [], some (.protocol
      (if ValidLines stream then "SSE ended before message_stop" else "invalid SSE UTF-8"))⟩

/-- The mapper after some events, unless one of them ends the stream. -/
def mapAll : M → List Event → Option M
  | m, [] => some m
  | m, event :: events =>
    match mapEvent m event with
    | .error _ => none
    | .ok (m, mapped) => if (yieldMapped mapped).2 then none else mapAll m events

/-- The chunk that completes the first invalid line completes no event before
    it, or the stream has ended at an event of an earlier chunk. -/
def Kept (m : M) (chunks : List (List UInt8)) : Prop :=
  ∀ before chunk after, chunks = before ++ chunk :: after →
    ValidLines before.flatten → ¬ ValidLines (before.flatten ++ chunk) →
    reference (before.flatten ++ chunk) = reference before.flatten ∨
      mapAll mapEvent m (reference before.flatten) = none

/-! ### Draining -/

variable {mapEvent}

theorem drain_append (m : M) (a b : List Event) (next : M → Outcome) :
    drain mapEvent m (a ++ b) next = drain mapEvent m a fun m => drain mapEvent m b next := by
  induction a generalizing m with
  | nil => rfl
  | cons event a ih =>
    rw [List.cons_append, drain, drain]
    cases mapEvent m event with
    | error e => rfl
    | ok r =>
      obtain ⟨m, events⟩ := r
      dsimp only
      rw [ih m]

/-- Once the stream has ended, nothing that comes next matters. -/
theorem drain_ended {m : M} {events : List Event} (h : mapAll mapEvent m events = none)
    (next next' : M → Outcome) : drain mapEvent m events next = drain mapEvent m events next' := by
  induction events generalizing m with
  | nil => cases h
  | cons event events ih =>
    rw [mapAll] at h
    rw [drain, drain]
    cases hmap : mapEvent m event with
    | error e => rfl
    | ok r =>
      obtain ⟨m, mapped⟩ := r
      rw [hmap] at h
      dsimp only at h ⊢
      cases hyield : yieldMapped mapped with
      | mk yielded stop =>
        rw [hyield] at h
        cases stop with
        | true => rfl
        | false => exact congrArg (fun o => o.after event yielded) (ih h)

/-- Until the stream has ended, every event is seen. -/
theorem drain_seen {m m' : M} {events : List Event} (h : mapAll mapEvent m events = some m')
    (next : M → Outcome) : (drain mapEvent m events next).seen = events ++ (next m').seen := by
  induction events generalizing m with
  | nil =>
    obtain rfl := Option.some.inj h
    rfl
  | cons event events ih =>
    rw [mapAll] at h
    rw [drain]
    cases hmap : mapEvent m event with
    | error e =>
      rw [hmap] at h
      cases h
    | ok r =>
      obtain ⟨m, mapped⟩ := r
      rw [hmap] at h
      dsimp only at h ⊢
      cases hyield : yieldMapped mapped with
      | mk yielded stop =>
        rw [hyield] at h
        cases stop with
        | true => cases h
        | false => exact congrArg (event :: ·) (ih h)

/-- At least the first of the pending events is seen. -/
theorem drain_seen_ne_nil (m : M) {events : List Event} (h : events ≠ []) (next : M → Outcome) :
    (drain mapEvent m events next).seen ≠ [] := by
  obtain ⟨event, events, rfl⟩ := List.exists_cons_of_ne_nil h
  rw [drain]
  cases mapEvent m event with
  | error e => exact List.cons_ne_nil _ _
  | ok r =>
    obtain ⟨m, mapped⟩ := r
    dsimp only
    cases yieldMapped mapped with
    | mk yielded stop =>
      cases stop with
      | true => exact List.cons_ne_nil _ _
      | false => exact List.cons_ne_nil _ _

/-! ### Chunks -/

/-- The chunks that the parser accepts are seen through to their events. -/
theorem responseStream_append {p q : Parser} {before : List (List UInt8)} {events : List Event}
    (h : p.feed before.flatten = .ok (q, events)) (m : M) (after : List (List UInt8)) :
    responseStream mapEvent m p (before ++ after) =
      drain mapEvent m events fun m => responseStream mapEvent m q after := by
  induction before generalizing p m events with
  | nil =>
    obtain ⟨rfl, rfl⟩ := Prod.mk.inj (Except.ok.inj h)
    rfl
  | cons chunk before ih =>
    rw [List.cons_append, responseStream]
    cases hchunk : p.feed chunk with
    | error e =>
      rw [List.flatten_cons, feed_append, hchunk] at h
      cases h
    | ok r =>
      obtain ⟨p', first⟩ := r
      rw [List.flatten_cons, feed_append_ok hchunk] at h
      cases hrest : p'.feed before.flatten with
      | error e =>
        rw [hrest] at h
        cases h
      | ok s =>
        obtain ⟨q', rest⟩ := s
        rw [hrest] at h
        obtain ⟨rfl, rfl⟩ := Prod.mk.inj (Except.ok.inj h)
        dsimp only
        rw [drain_append]
        congr 1
        funext m
        exact ih hrest m

theorem feed_valid {stream : List UInt8} (h : ValidLines stream) :
    ∃ p, Parser.new.feed stream = .ok (p, reference stream) := by
  have hout := feed_outcome stream
  rw [if_pos h] at hout
  cases hfeed : Parser.new.feed stream with
  | error e =>
    rw [hfeed] at hout
    cases hout
  | ok r =>
    obtain ⟨p, events⟩ := r
    rw [hfeed] at hout
    exact ⟨p, congrArg (fun e => Except.ok (p, e)) (Except.ok.inj hout)⟩

theorem feed_invalid {stream : List UInt8} (h : ¬ ValidLines stream) :
    Parser.new.feed stream = .error (.protocol "invalid SSE UTF-8") := by
  have hout := feed_outcome stream
  rw [if_neg h] at hout
  cases hfeed : Parser.new.feed stream with
  | error e =>
    rw [hfeed] at hout
    exact congrArg Except.error (Except.error.inj hout)
  | ok r =>
    rw [hfeed] at hout
    cases hout

/-- The stream up to the chunk that completes an invalid line. -/
theorem responseStream_invalid {before : List (List UInt8)} {chunk : List UInt8}
    (hbefore : ValidLines before.flatten) (hchunk : ¬ ValidLines (before.flatten ++ chunk))
    (m : M) (after : List (List UInt8)) :
    responseStream mapEvent m Parser.new (before ++ chunk :: after) =
      drain mapEvent m (reference before.flatten) fun _ =>
        ⟨[], [], some (.protocol "invalid SSE UTF-8")⟩ := by
  obtain ⟨p, hp⟩ := feed_valid hbefore
  have hfeed : p.feed chunk = .error (.protocol "invalid SSE UTF-8") := by
    have hall := feed_invalid hchunk
    rw [feed_append_ok hp] at hall
    cases hfeed : p.feed chunk with
    | error e =>
      rw [hfeed] at hall
      exact congrArg Except.error (Except.error.inj hall)
    | ok r =>
      rw [hfeed] at hall
      cases hall
  rw [responseStream_append hp]
  congr 1
  funext m
  rw [responseStream, hfeed]

/-! ### The reference decoder on a prefix -/

/-- A longer stream has the same terminated lines first. -/
theorem terminated_isPrefix (part a b : List UInt8) :
    terminated part a <+: terminated part (a ++ b) := by
  induction part, a using terminated.induct with
  | case1 part => exact List.nil_prefix
  | case2 part a ih =>
    rw [List.cons_append, terminated, terminated]
    exact (List.prefix_cons_inj _).mpr ih
  | case3 part a ih =>
    rw [List.cons_append, List.cons_append, terminated, terminated]
    exact (List.prefix_cons_inj _).mpr ih
  | case4 part a hlf ih =>
    rw [terminated_cr part hlf]
    cases a with
    | nil =>
      -- The CR may be the first half of a CRLF; it ends the same line.
      show [part] <+: terminated part (13 :: b)
      by_cases hb : ∃ rest, b = 10 :: rest
      · obtain ⟨rest, rfl⟩ := hb
        rw [terminated]
        exact (List.prefix_cons_inj _).mpr List.nil_prefix
      · rw [terminated_cr part fun rest h => hb ⟨rest, h⟩]
        exact (List.prefix_cons_inj _).mpr List.nil_prefix
    | cons byte a =>
      have hlf' : ∀ rest, byte :: a ++ b ≠ 10 :: rest :=
        fun rest h => hlf a (by rw [(List.cons.inj h).1])
      rw [List.cons_append, terminated_cr part hlf']
      exact (List.prefix_cons_inj _).mpr ih
  | case5 part byte a h10 hcrlf h13 ih =>
    rw [List.cons_append, terminated_byte part h13 h10, terminated_byte part h13 h10]
    exact ih

theorem ValidLines.left {a b : List UInt8} (h : ValidLines (a ++ b)) : ValidLines a :=
  fun line hline => h line ((terminated_isPrefix [] a b).mem hline)

theorem decoded_isPrefix (xs ys : List (List UInt8)) : decoded xs <+: decoded (xs ++ ys) := by
  induction xs with
  | nil => exact List.nil_prefix
  | cons line xs ih =>
    cases hd : Utf8.decode line with
    | none =>
      rw [decoded_invalid hd]
      exact List.nil_prefix
    | some text =>
      rw [List.cons_append, decoded_valid hd, decoded_valid hd]
      exact (List.prefix_cons_inj _).mpr ih

/-- Nothing is read after a line that is not valid. -/
theorem decoded_append {xs : List (List UInt8)}
    (h : ¬ ∀ line ∈ xs, (Utf8.decode line).isSome) (ys : List (List UInt8)) :
    decoded (xs ++ ys) = decoded xs := by
  induction xs with
  | nil => exact absurd (fun _ hmem => absurd hmem List.not_mem_nil) h
  | cons line xs ih =>
    cases hd : Utf8.decode line with
    | none => rw [List.cons_append, decoded_invalid hd, decoded_invalid hd]
    | some text =>
      have hxs : ¬ ∀ line ∈ xs, (Utf8.decode line).isSome := fun hall =>
        h (List.forall_mem_cons.mpr ⟨by rw [hd]; rfl, hall⟩)
      rw [List.cons_append, decoded_valid hd, decoded_valid hd, ih hxs]

theorem stripMark_isPrefix {s t : List (List Char)} (h : s <+: t) :
    stripMark s <+: stripMark t := by
  cases s with
  | nil => exact List.nil_prefix
  | cons text s =>
    obtain ⟨more, rfl⟩ := h
    exact (List.prefix_cons_inj _).mpr ⟨more, rfl⟩

theorem blocks_isPrefix (block s more : List (List Char)) :
    blocks block s <+: blocks block (s ++ more) := by
  induction block, s using blocks.induct with
  | case1 block => exact List.nil_prefix
  | case2 block s ih =>
    rw [List.cons_append, blocks, blocks]
    exact (List.prefix_cons_inj _).mpr ih
  | case3 block text s hblank ih =>
    rw [List.cons_append, blocks, blocks]
    · exact ih
    · exact hblank
    · exact hblank

theorem eventsOf_isPrefix (before : List (List Char × List Char))
    (bs more : List (List (List Char))) :
    eventsOf before bs <+: eventsOf before (bs ++ more) := by
  induction bs generalizing before with
  | nil => exact List.nil_prefix
  | cons block bs ih => exact (List.prefix_append_right_inj _).mpr (ih _)

/-- A longer stream completes the same events first. -/
theorem reference_isPrefix (a b : List UInt8) : reference a <+: reference (a ++ b) := by
  obtain ⟨lines, hlines⟩ := terminated_isPrefix [] a b
  obtain ⟨texts, htexts⟩ :=
    stripMark_isPrefix (decoded_isPrefix (terminated [] a) lines)
  obtain ⟨more, hmore⟩ := blocks_isPrefix [] (stripMark (decoded (terminated [] a))) texts
  unfold reference
  rw [← hlines, ← htexts, ← hmore]
  exact eventsOf_isPrefix _ _ _

/-- Nothing is completed after a line that is not valid. -/
theorem reference_append {a : List UInt8} (h : ¬ ValidLines a) (b : List UInt8) :
    reference (a ++ b) = reference a := by
  obtain ⟨lines, hlines⟩ := terminated_isPrefix [] a b
  unfold reference
  rw [← hlines, decoded_append h]

/-! ### The outcome -/

/-- The chunks up to the one that completes the first line that is not valid. -/
theorem exists_invalid_chunk {chunks : List (List UInt8)} (h : ¬ ValidLines chunks.flatten) :
    ∃ before chunk after, chunks = before ++ chunk :: after ∧ ValidLines before.flatten ∧
      ¬ ValidLines (before.flatten ++ chunk) := by
  induction chunks using List.reverseRecOn with
  | nil => exact absurd (fun _ hmem => absurd hmem List.not_mem_nil) h
  | append_singleton chunks chunk ih =>
    by_cases hvalid : ValidLines chunks.flatten
    · rw [List.flatten_append, List.flatten_singleton] at h
      exact ⟨chunks, chunk, [], rfl, hvalid, h⟩
    · obtain ⟨before, bad, after, rfl, hbefore, hbad⟩ := ih hvalid
      exact ⟨before, bad, after ++ [chunk], by simp, hbefore, hbad⟩

/-- At the chunk that completes the first invalid line, the outcome is the
    expected one if nothing of that chunk is lost. -/
theorem responseStream_eq_iff {m : M} {before : List (List UInt8)} {chunk : List UInt8}
    {after : List (List UInt8)} (hbefore : ValidLines before.flatten)
    (hchunk : ¬ ValidLines (before.flatten ++ chunk)) :
    responseStream mapEvent m Parser.new (before ++ chunk :: after) =
        expected mapEvent m (before ++ chunk :: after).flatten ↔
      reference (before.flatten ++ chunk) = reference before.flatten ∨
        mapAll mapEvent m (reference before.flatten) = none := by
  have hstream : (before ++ chunk :: after).flatten =
      (before.flatten ++ chunk) ++ after.flatten := by simp
  have hinvalid : ¬ ValidLines ((before.flatten ++ chunk) ++ after.flatten) :=
    fun h => hchunk h.left
  obtain ⟨lost, hlost⟩ := reference_isPrefix before.flatten chunk
  unfold expected
  rw [responseStream_invalid hbefore hchunk, hstream, reference_append hchunk, if_neg hinvalid,
    ← hlost, drain_append]
  constructor
  · intro heq
    cases hmap : mapAll mapEvent m (reference before.flatten) with
    | none => exact .inr rfl
    | some m' =>
      have hseen := congrArg Outcome.seen heq
      rw [drain_seen hmap, drain_seen hmap] at hseen
      have hnone := List.append_cancel_left hseen
      by_cases hempty : lost = []
      · rw [hempty, List.append_nil]
        exact .inl rfl
      · exact absurd hnone.symm (drain_seen_ne_nil m' hempty _)
  · rintro (hnone | hended)
    · have hempty : lost = [] := List.append_right_eq_self.mp hnone
      rw [hempty]
      rfl
    · exact drain_ended hended _ _

/-- The chunks matter exactly where an invalid line follows an event that its own
    chunk completes. -/
theorem responseStream_iff (m : M) (chunks : List (List UInt8)) :
    responseStream mapEvent m Parser.new chunks = expected mapEvent m chunks.flatten ↔
      Kept mapEvent m chunks := by
  constructor
  · intro h before chunk after heq hbefore hchunk
    subst heq
    exact (responseStream_eq_iff hbefore hchunk).mp h
  · intro h
    by_cases hvalid : ValidLines chunks.flatten
    · obtain ⟨p, hp⟩ := feed_valid hvalid
      have hrun : responseStream mapEvent m Parser.new (chunks ++ []) = _ :=
        responseStream_append hp m []
      rw [List.append_nil] at hrun
      unfold expected
      rw [hrun, if_pos hvalid]
      rfl
    · obtain ⟨before, chunk, after, heq, hbefore, hchunk⟩ := exists_invalid_chunk hvalid
      have hkept := h before chunk after heq hbefore hchunk
      rw [heq]
      exact (responseStream_eq_iff hbefore hchunk).mpr hkept

/-- A mapper for the event that stops a message. -/
def mapStop (_ : Unit) (event : Event) : Except ProviderError (Unit × List StreamEvent) :=
  .ok ((), if event.event = "message_stop".toList then [.messageStop] else [])

/-- A message stop, and then a line that is not valid. -/
def stoppedThenInvalid : List (List UInt8) :=
  [Utf8.encode "event: message_stop\ndata: {}\n\n".toList, [0xFF, 10]]

/-- In two chunks the stop is seen, in one chunk it is lost. -/
theorem responseStream_merged :
    (responseStream mapStop () Parser.new stoppedThenInvalid).seen =
      (expected mapStop () stoppedThenInvalid.flatten).seen ∧
    responseStream mapStop () Parser.new [stoppedThenInvalid.flatten] ≠
      expected mapStop () [stoppedThenInvalid.flatten].flatten := by
  refine ⟨by decide +kernel, fun h => ?_⟩
  have hseen := congrArg Outcome.seen h
  exact absurd hseen (by decide +kernel)

end Kyora.Sse
