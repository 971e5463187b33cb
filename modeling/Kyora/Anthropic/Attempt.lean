import Kyora.Anthropic.Mapper
import Kyora.Framework.System
import Kyora.Sse.Consumer

/-! # One attempt

  A call of `stream` sends one request. It can be cancelled or run out of time
  before the request leaves, while it is answered and while the answer streams
  in, and the server can refuse it. What an attempt costs hangs on whether its
  request was dispatched, so failures are classified by that.

  * `http`, `classifyDispatch`: the errors of an attempt.
  * `Attempt.State.step`: the attempt, its connection and the clock.
  * `Attempt.Moves`: the steps as a relation.
-/

namespace Kyora.Anthropic

/-! ### Errors -/

/-- `contains`. -/
def containsText (text part : String) : Bool := decide (part.toList <:+: text.toList)

/-- The error of an unsuccessful response. `body` is its JSON, if it has any. -/
def http (status : Nat) (retryAfter : Option Nat) (body : Option Json) (key : String) :
    ProviderError :=
  let error := (body.map fun value => value.index "error").getD .null
  let kind := ((error.index "type").text?).getD
    (if status = 429 then "rate_limit_error"
      else if status = 529 then "overloaded_error"
      else "unknown_error")
  let detail := ((error.index "message").text?).getD "unsuccessful HTTP response"
  let message := redact (kind ++ ": " ++ detail) key
  let lower := detail.map Char.toLower
  if (status = 400 ∨ status = 413) ∧
      (containsText lower "prompt is too long" ∨ containsText lower "prompt too long") then
    .contextTooLarge message
  else .http status message retryAfter

/-- `to_string`. -/
def errorText : ProviderError → String
  | .http status message _ => "HTTP " ++ toString status ++ ": " ++ message
  | .notSent reason => "not sent: " ++ reason
  | .transport reason => "transport: " ++ reason
  | .stream kind message => "stream error " ++ kind ++ ": " ++ message
  | .idleTimeout => "stream idle timeout"
  | .protocol reason => "protocol: " ++ reason
  | .cancelled => "cancelled"
  | .contextTooLarge reason => "context too large: " ++ reason
  | .other reason => reason

/-- Classifies a failure by HTTP dispatch, never by the transport error kind. -/
def classifyDispatch (error : ProviderError) (sendStarted : Bool) : ProviderError :=
  if sendStarted then error
  else .notSent (match error with
    | .notSent message => message
    | .transport message => message
    | .cancelled => "cancelled before sending"
    | error => errorText error)

namespace Attempt

open Sse (Event Parser)

/-! ### The attempt -/

/-- The settings of a provider that its attempts use. -/
structure Config where
  /-- Maximum wait between complete events. -/
  idleTimeout : Nat
  /-- Maximum duration of the whole attempt. -/
  requestTimeout : Nat
  key : String

/-- What `response_stream` keeps between two polls. -/
structure Stream (M : Type) where
  deadline : Nat
  idleDeadline : Nat
  parser : Parser
  mapper : M
  pending : List Event

/-- How far an attempt is. -/
inductive Phase (M : Type) where
  /-- `stream` was called. -/
  | called
  /-- In `send_request`. -/
  | sending (deadline : Nat)
  /-- Reads the body of an unsuccessful response, until a timer ends that. -/
  | refusing (deadline idleDeadline status : Nat) (retryAfter : Option Nat)
  /-- The stream is returned, and not polled yet. -/
  | opened (deadline : Nat)
  | streaming (stream : Stream M)
  /-- Yields the events of one server-sent event. -/
  | yielding (stream : Stream M) (events : List StreamEvent)
  /-- `stream` returned an error. -/
  | failed (error : ProviderError)
  /-- The stream ended, with an error unless a message stopped. -/
  | ended (error : Option ProviderError)
  | dropped

structure State (M : Type) where
  cancelled : Bool
  now : Nat
  /-- `send_started`. -/
  sendStarted : Bool
  phase : Phase M
  /-- The chunks that the parser was given. -/
  received : List (List UInt8)
  yielded : List StreamEvent

/-- The head of a response. -/
inductive Response where
  | success
  | failure (status : Nat) (retryAfter : Option Nat)

/-- What a response has for a poll. -/
inductive Chunk where
  | data (bytes : List UInt8)
  | eof
  /-- The text of `error::transport`. -/
  | failed (message : String)

inductive Label where
  | cancel
  | pass (time : Nat)
  /-- The first poll, which fails for a request that cannot be built. -/
  | begin (error : Option String)
  /-- The connection asks for the body: it is about to write the headers. -/
  | dispatch
  /-- A poll of `send_request`, with what `execute` has come to. -/
  | execute (result : Option (Except String Response))
  /-- The body of a refusal, as JSON if it is. -/
  | body (value : Option Json)
  /-- The first poll of the stream. -/
  | listen
  /-- A poll of the stream. -/
  | poll (chunk : Option Chunk)
  /-- The consumer takes an event. -/
  | yield
  | drop

section

variable {M : Type} (mapEvent : M → Event → Except ProviderError (M × List StreamEvent)) (new : M)

/-- `matches!(event, StreamEvent::MessageStop)`. -/
def isStop : StreamEvent → Bool
  | .messageStop => true
  | _ => false

def State.fail (s : State M) (error : ProviderError) : State M :=
  { s with phase := .ended (some error) }

/-- The `select!` of `send_request`, which looks at its branches in order. -/
def State.execute (s : State M) (deadline : Nat) (result : Option (Except String Response)) :
    Option (Except ProviderError Response) :=
  if s.cancelled then some (.error .cancelled)
  else if deadline ≤ s.now then some (.error (.transport "request timeout"))
  else result.map fun
    | .ok response => .ok response
    | .error message => .error (.transport message)

/-- What a chunk makes of the stream. -/
def State.receive (s : State M) (config : Config) (stream : Stream M) : Chunk → State M
  | .data bytes =>
    let s := { s with received := s.received ++ [bytes] }
    match stream.parser.feed bytes with
    | .error error => s.fail error
    | .ok (parser, events) =>
      { s with phase := .streaming { stream with
          parser
          pending := events
          idleDeadline :=
            if events.isEmpty then stream.idleDeadline else s.now + config.idleTimeout } }
  | .eof => s.fail (.protocol "SSE ended before message_stop")
  | .failed message => s.fail (.transport message)

/-- The loop of `response_stream`, up to where it waits or has a result. -/
def State.poll (s : State M) (config : Config) (stream : Stream M) (chunk : Option Chunk) :
    Option (State M) :=
  if s.cancelled then some (s.fail .cancelled)
  else if stream.deadline ≤ s.now then some (s.fail (.transport "request timeout"))
  else match stream.pending with
    | event :: pending =>
      some (match mapEvent stream.mapper event with
        | .error error => s.fail error
        | .ok (mapper, events) =>
          { s with phase := .yielding { stream with mapper, pending } events })
    | [] =>
      if stream.idleDeadline ≤ s.now then some (s.fail .idleTimeout)
      else chunk.map (s.receive config stream)

def State.step (config : Config) (s : State M) : Label → Option (State M)
  | .cancel => some { s with cancelled := true }
  | .pass time => some { s with now := s.now + time }
  | .begin error =>
    match s.phase with
    | .called =>
      some { s with phase :=
        if s.cancelled then .failed (classifyDispatch .cancelled false)
        else match error with
          | some message => .failed (classifyDispatch (.transport message) s.sendStarted)
          | none => .sending (s.now + config.requestTimeout) }
    | _ => none
  | .dispatch =>
    match s.phase with
    | .sending _ => some { s with sendStarted := true }
    | _ => none
  | .execute result =>
    match s.phase with
    | .sending deadline =>
      match s.execute deadline result with
      | some (.error error) =>
        some { s with phase := .failed (classifyDispatch error s.sendStarted) }
      | some (.ok response) =>
        -- a response comes to a request that was written
        if s.sendStarted then
          some { s with phase := match response with
            | .success => .opened deadline
            | .failure status retryAfter =>
              .refusing deadline (s.now + config.idleTimeout) status retryAfter }
        else none
      | none => none
    | _ => none
  | .body value =>
    match s.phase with
    | .refusing deadline idleDeadline status retryAfter =>
      -- the body only enriches the error
      let value := if s.cancelled || deadline ≤ s.now || idleDeadline ≤ s.now then none else value
      some { s with phase := .failed (http status retryAfter value config.key) }
    | _ => none
  | .listen =>
    match s.phase with
    | .opened deadline =>
      some { s with phase := .streaming ⟨deadline, s.now + config.idleTimeout, .new, new, []⟩ }
    | _ => none
  | .poll chunk =>
    match s.phase with
    | .streaming stream => s.poll mapEvent config stream chunk
    | _ => none
  | .yield =>
    match s.phase with
    | .yielding stream (event :: events) =>
      some { s with
        yielded := s.yielded ++ [event]
        phase := if isStop event then .ended none else .yielding stream events }
    | .yielding stream [] => some { s with phase := .streaming stream }
    | _ => none
  | .drop => some { s with phase := .dropped }

def system (config : Config) : LTS.System (State M) Label :=
  ⟨⟨false, 0, false, .called, [], []⟩, State.step mapEvent new config⟩

/-! ### What a step does -/

/-- Errors that cut a stream short: they come from outside of it. -/
inductive Cut : ProviderError → Prop where
  | cancelled : Cut .cancelled
  | transport (message : String) : Cut (.transport message)
  | idleTimeout : Cut .idleTimeout

/-- Why an attempt fails before it streams. -/
inductive Fails (config : Config) (s : State M) : ProviderError → Prop where
  | unsent (reason : String) (hphase : s.phase = .called ∨ ∃ deadline, s.phase = .sending deadline)
      (hsent : s.phase = .called ∨ s.sendStarted = false) : Fails config s (.notSent reason)
  | sent (error : ProviderError) (hcut : Cut error)
      (hphase : s.phase = .called ∨ ∃ deadline, s.phase = .sending deadline)
      (hsent : s.sendStarted = true) : Fails config s error
  | refused (deadline idleDeadline status : Nat) (retryAfter : Option Nat) (value : Option Json)
      (hphase : s.phase = .refusing deadline idleDeadline status retryAfter) :
      Fails config s (http status retryAfter value config.key)

/-- The steps of the system. -/
inductive Moves (config : Config) (s : State M) : State M → Prop where
  | around (cancelled : Bool) (now : Nat) (hcancelled : s.cancelled = true → cancelled = true)
      (hnow : s.now ≤ now) : Moves config s { s with cancelled, now }
  | fail (error : ProviderError) (h : Fails config s error) :
      Moves config s { s with phase := .failed error }
  | send (deadline : Nat) (hphase : s.phase = .called) :
      Moves config s { s with phase := .sending deadline }
  | dispatch (deadline : Nat) (hphase : s.phase = .sending deadline) :
      Moves config s { s with sendStarted := true }
  | refuse (deadline idleDeadline status : Nat) (retryAfter : Option Nat)
      (hphase : s.phase = .sending deadline) (hsent : s.sendStarted = true) :
      Moves config s { s with phase := .refusing deadline idleDeadline status retryAfter }
  | respond (deadline : Nat) (hphase : s.phase = .sending deadline)
      (hsent : s.sendStarted = true) : Moves config s { s with phase := .opened deadline }
  | listen (deadline idleDeadline : Nat) (hphase : s.phase = .opened deadline) :
      Moves config s { s with phase := .streaming ⟨deadline, idleDeadline, .new, new, []⟩ }
  | cut (stream : Stream M) (error : ProviderError) (hphase : s.phase = .streaming stream)
      (hcut : Cut error) (hcancelled : s.cancelled = true → error = .cancelled) :
      Moves config s { s with phase := .ended (some error) }
  | unmapped (stream : Stream M) (event : Event) (pending : List Event) (error : ProviderError)
      (hphase : s.phase = .streaming stream) (hcancelled : s.cancelled = false)
      (hpending : stream.pending = event :: pending)
      (hmap : mapEvent stream.mapper event = .error error) :
      Moves config s { s with phase := .ended (some error) }
  | map (stream : Stream M) (event : Event) (pending : List Event) (mapper : M)
      (events : List StreamEvent) (hphase : s.phase = .streaming stream)
      (hcancelled : s.cancelled = false) (hpending : stream.pending = event :: pending)
      (hmap : mapEvent stream.mapper event = .ok (mapper, events)) :
      Moves config s { s with phase := .yielding { stream with mapper, pending } events }
  | eof (stream : Stream M) (hphase : s.phase = .streaming stream)
      (hcancelled : s.cancelled = false) (hpending : stream.pending = []) :
      Moves config s
        { s with phase := .ended (some (.protocol "SSE ended before message_stop")) }
  | invalid (stream : Stream M) (bytes : List UInt8) (error : ProviderError)
      (hphase : s.phase = .streaming stream) (hcancelled : s.cancelled = false)
      (hpending : stream.pending = []) (hfeed : stream.parser.feed bytes = .error error) :
      Moves config s
        { s with received := s.received ++ [bytes], phase := .ended (some error) }
  | data (stream : Stream M) (bytes : List UInt8) (parser : Parser) (events : List Event)
      (idleDeadline : Nat) (hphase : s.phase = .streaming stream)
      (hcancelled : s.cancelled = false) (hpending : stream.pending = [])
      (hfeed : stream.parser.feed bytes = .ok (parser, events)) :
      Moves config s
        { s with
          received := s.received ++ [bytes]
          phase := .streaming ⟨stream.deadline, idleDeadline, parser, stream.mapper, events⟩ }
  | yield (stream : Stream M) (event : StreamEvent) (events : List StreamEvent)
      (hphase : s.phase = .yielding stream (event :: events)) (hstop : isStop event = false) :
      Moves config s
        { s with yielded := s.yielded ++ [event], phase := .yielding stream events }
  | stop (stream : Stream M) (event : StreamEvent) (events : List StreamEvent)
      (hphase : s.phase = .yielding stream (event :: events)) (hstop : isStop event = true) :
      Moves config s { s with yielded := s.yielded ++ [event], phase := .ended none }
  | resume (stream : Stream M) (hphase : s.phase = .yielding stream []) :
      Moves config s { s with phase := .streaming stream }
  | drop : Moves config s { s with phase := .dropped }

variable {mapEvent new} {config : Config} {s t : State M}

/-- What is classified is not sent, or cut short after dispatch. -/
theorem fails_classify {error : ProviderError} (hcut : Cut error)
    (hphase : s.phase = .called ∨ ∃ deadline, s.phase = .sending deadline) :
    Fails config s (classifyDispatch error s.sendStarted) := by
  cases hsent : s.sendStarted with
  | true => exact .sent error hcut hphase hsent
  | false => exact .unsent _ hphase (.inr hsent)

theorem moves_poll {stream : Stream M} {chunk : Option Chunk} (hphase : s.phase = .streaming stream)
    (h : s.poll mapEvent config stream chunk = some t) : Moves mapEvent new config s t := by
  unfold State.poll at h
  by_cases hcancelled : s.cancelled = true
  · rw [if_pos hcancelled] at h
    obtain rfl := Option.some.inj h
    exact .cut stream _ hphase .cancelled fun _ => rfl
  have hfalse : s.cancelled = false := Bool.eq_false_iff.mpr hcancelled
  rw [if_neg hcancelled] at h
  by_cases hlate : stream.deadline ≤ s.now
  · rw [if_pos hlate] at h
    obtain rfl := Option.some.inj h
    exact .cut stream _ hphase (.transport _) fun hyes => absurd hyes hcancelled
  rw [if_neg hlate] at h
  cases hpending : stream.pending with
  | cons event pending =>
    rw [hpending] at h
    dsimp only at h
    cases hmap : mapEvent stream.mapper event with
    | error error =>
      rw [hmap] at h
      obtain rfl := Option.some.inj h
      exact .unmapped stream event pending error hphase hfalse hpending hmap
    | ok mapped =>
      obtain ⟨mapper, events⟩ := mapped
      rw [hmap] at h
      obtain rfl := Option.some.inj h
      exact .map stream event pending mapper events hphase hfalse hpending hmap
  | nil =>
    rw [hpending] at h
    dsimp only at h
    by_cases hidle : stream.idleDeadline ≤ s.now
    · rw [if_pos hidle] at h
      obtain rfl := Option.some.inj h
      exact .cut stream _ hphase .idleTimeout fun hyes => absurd hyes hcancelled
    rw [if_neg hidle] at h
    obtain ⟨chunk, -, hchunk⟩ := Option.map_eq_some_iff.mp h
    cases chunk with
    | eof =>
      subst hchunk
      exact .eof stream hphase hfalse hpending
    | failed message =>
      subst hchunk
      exact .cut stream _ hphase (.transport message) fun hyes => absurd hyes hcancelled
    | data bytes =>
      cases hfeed : stream.parser.feed bytes with
      | error error =>
        simp only [State.receive, hfeed] at hchunk
        subst hchunk
        exact .invalid stream bytes error hphase hfalse hpending hfeed
      | ok fed =>
        obtain ⟨parser, events⟩ := fed
        simp only [State.receive, hfeed] at hchunk
        subst hchunk
        exact .data stream bytes parser events _ hphase hfalse hpending hfeed

theorem moves_execute {deadline : Nat} {result : Option (Except String Response)}
    (hphase : s.phase = .sending deadline)
    (h : s.step mapEvent new config (.execute result) = some t) :
    Moves mapEvent new config s t := by
  have hcut : ∀ error, s.execute deadline result = some (.error error) → Cut error := by
    intro error herror
    unfold State.execute at herror
    by_cases hcancelled : s.cancelled = true
    · rw [if_pos hcancelled] at herror
      obtain rfl := Except.error.inj (Option.some.inj herror)
      exact .cancelled
    rw [if_neg hcancelled] at herror
    by_cases hlate : deadline ≤ s.now
    · rw [if_pos hlate] at herror
      obtain rfl := Except.error.inj (Option.some.inj herror)
      exact .transport _
    rw [if_neg hlate] at herror
    obtain ⟨outcome, -, houtcome⟩ := Option.map_eq_some_iff.mp herror
    cases outcome with
    | error message =>
      obtain rfl := Except.error.inj houtcome
      exact .transport message
    | ok response => cases houtcome
  simp only [State.step, hphase] at h
  cases hresult : s.execute deadline result with
  | none =>
    rw [hresult] at h
    cases h
  | some outcome =>
    rw [hresult] at h
    cases outcome with
    | error error =>
      obtain rfl := Option.some.inj h
      exact .fail _ (fails_classify (hcut error hresult) (.inr ⟨deadline, hphase⟩))
    | ok response =>
      obtain ⟨hsent, hnext⟩ := Option.ite_none_right_eq_some.mp h
      obtain rfl := Option.some.inj hnext
      cases response with
      | success => exact .respond deadline hphase hsent
      | failure status retryAfter => exact .refuse deadline _ status retryAfter hphase hsent

theorem moves_begin {error : Option String} (hphase : s.phase = .called)
    (h : s.step mapEvent new config (.begin error) = some t) : Moves mapEvent new config s t := by
  simp only [State.step, hphase] at h
  obtain rfl := Option.some.inj h
  by_cases hcancelled : s.cancelled = true
  · rw [if_pos hcancelled]
    exact .fail _ (.unsent _ (.inl hphase) (.inl hphase))
  rw [if_neg hcancelled]
  cases error with
  | none => exact .send _ hphase
  | some message => exact .fail _ (fails_classify (.transport message) (.inl hphase))

theorem moves {l : Label} (h : (system mapEvent new config).step s l = some t) :
    Moves mapEvent new config s t := by
  change s.step mapEvent new config l = some t at h
  cases l with
  | cancel =>
    obtain rfl := Option.some.inj h
    exact .around true s.now (fun _ => rfl) (Nat.le_refl _)
  | pass time =>
    obtain rfl := Option.some.inj h
    exact .around s.cancelled _ id (Nat.le_add_right _ _)
  | begin error =>
    cases hphase : s.phase with
    | called => exact moves_begin hphase h
    | _ =>
      simp only [State.step, hphase] at h
      cases h
  | dispatch =>
    cases hphase : s.phase with
    | sending deadline =>
      simp only [State.step, hphase] at h
      obtain rfl := Option.some.inj h
      rw [← hphase]
      exact .dispatch deadline hphase
    | _ =>
      simp only [State.step, hphase] at h
      cases h
  | execute result =>
    cases hphase : s.phase with
    | sending deadline => exact moves_execute hphase h
    | _ =>
      simp only [State.step, hphase] at h
      cases h
  | body value =>
    cases hphase : s.phase with
    | refusing deadline idleDeadline status retryAfter =>
      simp only [State.step, hphase] at h
      obtain rfl := Option.some.inj h
      exact .fail _ (.refused deadline idleDeadline status retryAfter _ hphase)
    | _ =>
      simp only [State.step, hphase] at h
      cases h
  | listen =>
    cases hphase : s.phase with
    | opened deadline =>
      simp only [State.step, hphase] at h
      obtain rfl := Option.some.inj h
      exact .listen deadline _ hphase
    | _ =>
      simp only [State.step, hphase] at h
      cases h
  | poll chunk =>
    cases hphase : s.phase with
    | streaming stream =>
      simp only [State.step, hphase] at h
      exact moves_poll hphase h
    | _ =>
      simp only [State.step, hphase] at h
      cases h
  | yield =>
    cases hphase : s.phase with
    | yielding stream events =>
      cases events with
      | nil =>
        simp only [State.step, hphase] at h
        obtain rfl := Option.some.inj h
        exact .resume stream hphase
      | cons event events =>
        simp only [State.step, hphase] at h
        obtain rfl := Option.some.inj h
        cases hstop : isStop event with
        | true => exact .stop stream event events hphase hstop
        | false => exact .yield stream event events hphase hstop
    | _ =>
      simp only [State.step, hphase] at h
      cases h
  | drop =>
    obtain rfl := Option.some.inj h
    exact .drop

end

end Attempt

end Kyora.Anthropic
