import Kyora.Anthropic.Attempt
import Kyora.Anthropic.Causes
import Kyora.Framework.Replace

/-! # The key stays out of errors

  A server, or a proxy on the way to it, could repeat the key of a request in what
  it answers, and errors are logged, recorded and shown. The texts that an error
  takes from a response are redacted, and the others are fixed.

  * `Secret`: keys that a redaction can erase.
  * `redact_erases`, `redact_unchanged`: what a redaction does.
  * `attempt_redacted`: no error of an attempt has its key in a text.
-/

namespace Kyora.Anthropic

open Errors (Only)
open Sse (Event)

/-! ### Texts of errors -/

/-- The texts of `error::transport`. -/
def transportTexts : List String :=
  ["request timeout", "connection or request setup failed", "HTTP transport failed"]

/-- The texts that errors have of their own. -/
def ownTexts : List String :=
  transportTexts ++
    ["cancelled before sending", "SSE ended before message_stop", "invalid SSE UTF-8",
      "invalid SSE JSON"] ++
    malformedFields.map fun field => s!"invalid Anthropic event field: {field}"

/-- The texts of an error. -/
def texts : ProviderError → List String
  | .http _ message _ => [message]
  | .notSent reason => [reason]
  | .transport reason => [reason]
  | .stream kind message => [kind, message]
  | .idleTimeout => []
  | .protocol reason => [reason]
  | .cancelled => []
  | .contextTooLarge reason => [reason]
  | .other reason => [reason]

/-- A key that is no part of the texts around it, and cannot be put together from them
    and the mark of a redaction. -/
structure Secret (key : String) : Prop where
  nonempty : key ≠ ""
  left : '[' ∉ key.toList
  right : ']' ∉ key.toList
  mark : ¬ key.toList <:+: "redacted".toList
  own : ∀ text ∈ ownTexts, ¬ key.toList <:+: text.toList

/-- No text of the error has the key. -/
def Safe (key : String) (error : ProviderError) : Prop :=
  ∀ text ∈ texts error, ¬ key.toList <:+: text.toList

section

variable {key : String}

/-! ### Redaction -/

/-- A redacted text does not have the key, also not across the border of a mark. -/
theorem redact_erases (hkey : Secret key) (message : String) :
    ¬ key.toList <:+: (redact message key).toList := by
  have hmark : "[redacted]".toList = '[' :: "redacted".toList ++ [']'] := by decide
  have hreplaces : Words.Replaces key.toList "[redacted]".toList message.toList _ :=
    Words.replaces_replace message hkey.nonempty
  rw [hmark] at hreplaces
  have hword : key.toList ≠ [] := fun hnil => hkey.nonempty (String.toList_eq_nil_iff.mp hnil)
  rw [redact, if_neg hkey.nonempty]
  exact hreplaces.erases hword hkey.left hkey.right hkey.mark

/-- A text without the key stays as it is. -/
theorem redact_unchanged {message : String} (hno : ¬ key.toList <:+: message.toList) :
    redact message key = message := by
  unfold redact
  split
  · rfl
  · next hkey =>
    exact String.toList_inj.mp ((Words.replaces_replace message hkey).unchanged hno)

/-! ### Safe errors -/

theorem safe_single {text : String} (h : ¬ key.toList <:+: text.toList) :
    ∀ other ∈ [text], ¬ key.toList <:+: other.toList := by
  intro other hother
  rw [List.mem_singleton.mp hother]
  exact h

theorem Secret.transport (hkey : Secret key) {message : String} (h : message ∈ transportTexts) :
    ¬ key.toList <:+: message.toList :=
  hkey.own message (List.mem_append_left _ (List.mem_append_left _ h))

theorem safe_transport (hkey : Secret key) {message : String} (h : message ∈ transportTexts) :
    Safe key (.transport message) :=
  safe_single (hkey.transport h)

theorem safe_cancelled : Safe key .cancelled := by
  intro text htext
  cases htext

theorem FromEvents.safe (hkey : Secret key) {error : ProviderError} (h : FromEvents key error) :
    Safe key error := by
  cases h with
  | utf8 => exact safe_single (hkey.own _ (by simp [ownTexts]))
  | json => exact safe_single (hkey.own _ (by simp [ownTexts]))
  | malformed field hfield =>
    exact safe_single (hkey.own _ (List.mem_append_right _ (List.mem_map_of_mem hfield)))
  | stream kind message =>
    intro text htext
    rcases List.mem_cons.mp htext with rfl | htext
    · exact redact_erases hkey kind
    · exact safe_single (redact_erases hkey message) text htext

theorem safe_http (hkey : Secret key) (status : Nat) (retryAfter : Option Nat)
    (body : Option Json) : Safe key (http status retryAfter body key) := by
  unfold http
  dsimp only
  split
  · exact safe_single (redact_erases hkey _)
  · exact safe_single (redact_erases hkey _)

/-- What an attempt is classified with before its response. -/
inductive Setup : ProviderError → Prop where
  | cancelled : Setup .cancelled
  | transport (message : String) (h : message ∈ transportTexts) : Setup (.transport message)

theorem Setup.safe (hkey : Secret key) {error : ProviderError} (h : Setup error)
    (sendStarted : Bool) : Safe key (classifyDispatch error sendStarted) := by
  -- before the send an error turns into `NotSent`, whose text is its own or is kept
  cases sendStarted with
  | true =>
    cases h with
    | cancelled => exact safe_cancelled
    | transport message hmessage => exact safe_transport hkey hmessage
  | false =>
    cases h with
    | cancelled => exact safe_single (hkey.own _ (by simp [ownTexts]))
    | transport message hmessage => exact safe_single (hkey.transport hmessage)

end

/-! ### Attempts -/

namespace Attempt

variable {M : Type} {mapEvent : M → Event → Except ProviderError (M × List StreamEvent)} {new : M}
  {config : Config} {s t : State M} {key : String}

/-- The failures of the client have the texts of `error::transport`. -/
def Label.Told : Label → Prop
  | .begin (some message) => message ∈ transportTexts
  | .execute (some (.error message)) => message ∈ transportTexts
  | .poll (some (.failed message)) => message ∈ transportTexts
  | _ => True

/-- The error of a phase, if it has one, is safe. -/
def Phase.Clean (key : String) : Phase M → Prop
  | .failed error => Safe key error
  | .ended (some error) => Safe key error
  | _ => True

theorem clean_receive (hkey : Secret config.key) {stream : Stream M} {chunk : Chunk}
    (htold : Label.Told (.poll (some chunk))) :
    (s.receive config stream chunk).phase.Clean config.key := by
  cases chunk with
  | data bytes =>
    -- the texts of the parser are fixed: what it could not read is in none of them
    have hfed : Only (FromEvents config.key) (stream.parser.feed bytes) := feed_only _ _
    cases hfeed : stream.parser.feed bytes with
    | error error =>
      simp only [State.receive, hfeed]
      exact (hfed error hfeed).safe hkey
    | ok fed =>
      simp only [State.receive, hfeed]
      exact trivial
  | eof => exact safe_single (hkey.own _ (by simp [ownTexts]))
  | failed message => exact safe_transport hkey htold

theorem clean_poll (hkey : Secret config.key)
    (hmap : ∀ mapper event, Only (FromEvents config.key) (mapEvent mapper event))
    {stream : Stream M} {chunk : Option Chunk} (htold : Label.Told (.poll chunk))
    (h : s.poll mapEvent config stream chunk = some t) : t.phase.Clean config.key := by
  unfold State.poll at h
  -- the order of the loop: the token, the deadline, what was parsed, the idle limit
  by_cases hcancelled : s.cancelled = true
  · rw [if_pos hcancelled] at h
    obtain rfl := Option.some.inj h
    exact safe_cancelled
  rw [if_neg hcancelled] at h
  by_cases hlate : stream.deadline ≤ s.now
  · rw [if_pos hlate] at h
    obtain rfl := Option.some.inj h
    exact safe_transport hkey (by simp [transportTexts])
  rw [if_neg hlate] at h
  cases hpending : stream.pending with
  | cons event pending =>
    rw [hpending] at h
    obtain rfl := Option.some.inj h
    cases hmapped : mapEvent stream.mapper event with
    | error error => exact (hmap stream.mapper event error hmapped).safe hkey
    | ok mapped => exact trivial
  | nil =>
    rw [hpending] at h
    dsimp only at h
    by_cases hidle : stream.idleDeadline ≤ s.now
    · rw [if_pos hidle] at h
      obtain rfl := Option.some.inj h
      intro text htext
      cases htext
    rw [if_neg hidle] at h
    obtain ⟨chunk, rfl, rfl⟩ := Option.map_eq_some_iff.mp h
    exact clean_receive hkey htold

/-- `select!` fails with what a `Setup` is. -/
theorem setup_execute {deadline : Nat} {result : Option (Except String Response)}
    {error : ProviderError} (htold : Label.Told (.execute result))
    (h : s.execute deadline result = some (.error error)) : Setup error := by
  unfold State.execute at h
  by_cases hcancelled : s.cancelled = true
  · rw [if_pos hcancelled] at h
    obtain rfl := Except.error.inj (Option.some.inj h)
    exact .cancelled
  rw [if_neg hcancelled] at h
  by_cases hlate : deadline ≤ s.now
  · rw [if_pos hlate] at h
    obtain rfl := Except.error.inj (Option.some.inj h)
    exact .transport _ (by simp [transportTexts])
  rw [if_neg hlate] at h
  obtain ⟨outcome, rfl, houtcome⟩ := Option.map_eq_some_iff.mp h
  cases outcome with
  | error message =>
    obtain rfl := Except.error.inj houtcome
    exact .transport message htold
  | ok response => cases houtcome

theorem clean_execute (hkey : Secret config.key) {deadline : Nat}
    {result : Option (Except String Response)} (hphase : s.phase = .sending deadline)
    (htold : Label.Told (.execute result))
    (h : s.step mapEvent new config (.execute result) = some t) : t.phase.Clean config.key := by
  simp only [State.step, hphase] at h
  cases hresult : s.execute deadline result with
  | none =>
    rw [hresult] at h
    cases h
  | some outcome =>
    rw [hresult] at h
    cases outcome with
    | error error =>
      obtain rfl := Option.some.inj h
      exact (setup_execute htold hresult).safe hkey _
    | ok response =>
      obtain ⟨-, hnext⟩ := Option.ite_none_right_eq_some.mp h
      obtain rfl := Option.some.inj hnext
      cases response with
      | success => exact trivial
      | failure status retryAfter => exact trivial

theorem clean_begin (hkey : Secret config.key) {error : Option String}
    (hphase : s.phase = .called) (htold : Label.Told (.begin error))
    (h : s.step mapEvent new config (.begin error) = some t) : t.phase.Clean config.key := by
  simp only [State.step, hphase] at h
  obtain rfl := Option.some.inj h
  by_cases hcancelled : s.cancelled = true
  · rw [if_pos hcancelled]
    exact Setup.cancelled.safe hkey false
  rw [if_neg hcancelled]
  cases error with
  | none => exact trivial
  | some message => exact (Setup.transport message htold).safe hkey _

/-- Every step leaves the error of an attempt safe. -/
theorem clean_step (hkey : Secret config.key)
    (hmap : ∀ mapper event, Only (FromEvents config.key) (mapEvent mapper event)) {l : Label}
    (hclean : s.phase.Clean config.key) (htold : l.Told)
    (h : s.step mapEvent new config l = some t) : t.phase.Clean config.key := by
  cases l with
  | cancel =>
    obtain rfl := Option.some.inj h
    exact hclean
  | pass time =>
    obtain rfl := Option.some.inj h
    exact hclean
  | begin error =>
    cases hphase : s.phase with
    | called => exact clean_begin hkey hphase htold h
    | _ =>
      simp only [State.step, hphase] at h
      cases h
  | dispatch =>
    cases hphase : s.phase with
    | sending deadline =>
      simp only [State.step, hphase] at h
      obtain rfl := Option.some.inj h
      exact trivial
    | _ =>
      simp only [State.step, hphase] at h
      cases h
  | execute result =>
    cases hphase : s.phase with
    | sending deadline => exact clean_execute hkey hphase htold h
    | _ =>
      simp only [State.step, hphase] at h
      cases h
  | body value =>
    cases hphase : s.phase with
    | refusing deadline idleDeadline status retryAfter =>
      simp only [State.step, hphase] at h
      obtain rfl := Option.some.inj h
      exact safe_http hkey status retryAfter _
    | _ =>
      simp only [State.step, hphase] at h
      cases h
  | listen =>
    cases hphase : s.phase with
    | opened deadline =>
      simp only [State.step, hphase] at h
      obtain rfl := Option.some.inj h
      exact trivial
    | _ =>
      simp only [State.step, hphase] at h
      cases h
  | poll chunk =>
    cases hphase : s.phase with
    | streaming stream =>
      simp only [State.step, hphase] at h
      exact clean_poll hkey hmap htold h
    | _ =>
      simp only [State.step, hphase] at h
      cases h
  | yield =>
    cases hphase : s.phase with
    | yielding stream events =>
      cases events with
      | nil =>
        simp only [State.step, hphase] at h
        obtain rfl := Option.some.inj h
        exact trivial
      | cons event events =>
        simp only [State.step, hphase] at h
        obtain rfl := Option.some.inj h
        cases hstop : isStop event <;> exact trivial
    | _ =>
      simp only [State.step, hphase] at h
      cases h
  | drop =>
    obtain rfl := Option.some.inj h
    exact trivial

/-- In every run of an attempt, whatever the server sends. -/
theorem attempt_redacted (fromStr : String → Option Json) (config : Config)
    (hkey : Secret config.key) :
    ∀ s, (system (fun m => Mapper.mapEvent fromStr config.key m) .new config).ReachableBy
        (fun _ l => l.Told) s →
      ∀ error, s.phase = .failed error ∨ s.phase = .ended (some error) →
        ∀ text ∈ texts error, ¬ config.key.toList <:+: text.toList := by
  intro s hs error hphase
  have hclean : s.phase.Clean config.key := by
    refine LTS.System.invariant (P := fun s => s.phase.Clean config.key) ?_ ?_ s hs
    · exact trivial
    intro s l t hclean htold hstep
    exact clean_step hkey (fun m event => mapEvent_only config.key m event) hclean htold hstep
  rcases hphase with hphase | hphase
  · rw [hphase] at hclean
    exact hclean
  · rw [hphase] at hclean
    exact hclean

def secretConfig : Config := ⟨5, 100, "sk-1"⟩

theorem secret_config : Secret secretConfig.key := by
  constructor <;> decide +kernel

/-- The body of a refusal that repeats the key. -/
def repeating : Json :=
  .object [("error", .object [("message", .string "invalid x-api-key: sk-1")])]

theorem attempt_redacted_refused : ¬ "sk-1".toList <:+:
    (redact ("unknown_error" ++ ": " ++ "invalid x-api-key: sk-1") "sk-1").toList := by
  have hreachable : (system (fun m => Mapper.mapEvent (fun _ => none) "sk-1" m) .new
      secretConfig).ReachableBy (fun _ l => l.Told)
        ⟨false, 0, true, .failed (http 401 none (some repeating) "sk-1"), [], []⟩ :=
    .step (l := .body (some repeating))
      (.step (l := .execute (some (.ok (.failure 401 none))))
        (.step (l := .dispatch) (.step (l := .begin none) .init trivial rfl) trivial rfl)
        trivial rfl)
      trivial rfl
  exact attempt_redacted (fun _ => none) secretConfig secret_config _ hreachable _ (.inl rfl) _
    (List.mem_singleton.mpr rfl)

end Attempt

end Kyora.Anthropic
