import Kyora.Accumulation.Basic
import Mathlib.Data.List.Induction

/-! # Well-formed streams

  What a complete stream looks like, and what it says: its blocks by index, and
  the text of each block as its deltas one after the other.
-/

namespace Kyora

/-! ### Events by index -/

namespace StreamEvent

/-- The block index of an event, none for an event of the whole message. -/
def index? : StreamEvent → Option Nat
  | .blockStart index _ | .textDelta index _ | .thinkingDelta index _
  | .signatureDelta index _ | .toolInputDelta index _ | .blockStop index => some index
  | _ => none

/-- The block that an event starts. -/
def starts : StreamEvent → Option (Nat × BlockStart)
  | .blockStart index block => some (index, block)
  | _ => none

/-- The index of the block that an event stops. -/
def stops : StreamEvent → Option Nat
  | .blockStop index => some index
  | _ => none

/-- The index of the started block that an event needs. -/
def refersTo : StreamEvent → Option Nat
  | .textDelta index _ | .thinkingDelta index _ | .signatureDelta index _
  | .toolInputDelta index _ | .blockStop index => some index
  | _ => none

def isMessageStart : StreamEvent → Bool
  | .messageStart _ _ _ => true
  | _ => false

def isMessageStop : StreamEvent → Bool
  | .messageStop => true
  | _ => false

/-- Whether an event may refer to a block of this kind. -/
def fits : StreamEvent → BlockStart → Bool
  | .textDelta _ _, .text => true
  | .thinkingDelta _ _, .thinking => true
  | .signatureDelta _ _, .thinking => true
  | .toolInputDelta _ _, .toolUse _ _ => true
  | .blockStop _, _ => true
  | _, _ => false

/-- The parts of a block's texts that an event brings. -/
def textPart : StreamEvent → Option (Nat × String)
  | .textDelta index text => some (index, text)
  | _ => none

def thinkingPart : StreamEvent → Option (Nat × String)
  | .thinkingDelta index thinking => some (index, thinking)
  | _ => none

def signaturePart : StreamEvent → Option (Nat × String)
  | .signatureDelta index signature => some (index, signature)
  | _ => none

def inputPart : StreamEvent → Option (Nat × String)
  | .toolInputDelta index partialJson => some (index, partialJson)
  | _ => none

/-- The stop reason that an event carries. -/
def reason : StreamEvent → Option StopReason
  | .messageDelta stopReason _ => stopReason
  | _ => none

end StreamEvent

namespace Accumulation

/-! ### What a stream says -/

/-- The blocks that are started, in order. -/
def starts (events : List StreamEvent) : List (Nat × BlockStart) :=
  events.filterMap StreamEvent.starts

/-- The indices that are stopped, in order. -/
def stops (events : List StreamEvent) : List Nat := events.filterMap StreamEvent.stops

/-- The parts of one kind that come for an index. -/
def partsOf (part : StreamEvent → Option (Nat × String)) (events : List StreamEvent)
    (index : Nat) : List String :=
  ((events.filterMap part).filter fun p => p.1 == index).map Prod.snd

/-- The concatenated arguments of a tool use. -/
def argumentsOf (events : List StreamEvent) (index : Nat) : String :=
  String.join (partsOf StreamEvent.inputPart events index)

/-- The signature of a reasoning block, if one came. -/
def signatureOf (events : List StreamEvent) (index : Nat) : Option String :=
  match partsOf StreamEvent.signaturePart events index with
  | [] => none
  | parts => some (String.join parts)

/-- The input that the arguments of a tool use stand for. -/
def inputOf (fromStr : String → Option Json) (text : String) : Json :=
  if text = "" then .object [] else (fromStr text).getD (.string text)

/-- The content of a block. -/
def contentOf (fromStr : String → Option Json) (events : List StreamEvent) (index : Nat) :
    BlockStart → ContentBlock
  | .text => .text (String.join (partsOf StreamEvent.textPart events index))
  | .thinking =>
    .thinking (String.join (partsOf StreamEvent.thinkingPart events index))
      (signatureOf events index)
  | .toolUse id name => .toolUse id name (inputOf fromStr (argumentsOf events index))
  | .opaqueBlock provider kind raw => .opaqueBlock provider kind raw

/-- The content of a stream, by increasing index. -/
def contents (fromStr : String → Option Json) (events : List StreamEvent) :
    List ContentBlock :=
  (((starts events).map Prod.fst).insertionSort (· ≤ ·)).filterMap fun index =>
    ((starts events).lookup index).map (contentOf fromStr events index)

/-- A tool use whose arguments are not empty and do not parse. -/
def invalidInput (fromStr : String → Option Json) (events : List StreamEvent) (index : Nat) :
    Bool :=
  match (starts events).lookup index with
  | some (.toolUse _ _) =>
    argumentsOf events index != "" && (fromStr (argumentsOf events index)).isNone
  | _ => false

/-- A complete and consistent stream. -/
structure WellFormed (events : List StreamEvent) : Prop where
  /-- One message start, first. -/
  start : ∃ first rest, events = first :: rest ∧ first.isMessageStart = true ∧
    ∀ event ∈ rest, event.isMessageStart = false
  /-- One message stop, last. -/
  stop : ∃ front last, events = front ++ [last] ∧ last.isMessageStop = true ∧
    ∀ event ∈ front, event.isMessageStop = false
  startedOnce : ((starts events).map Prod.fst).Nodup
  /-- A delta or a stop refers to a block that has started, has not stopped and
      is of its kind. -/
  refers : ∀ before event after, events = before ++ event :: after →
    ∀ index, event.refersTo = some index →
      ∃ block, (index, block) ∈ starts before ∧ index ∉ stops before ∧ event.fits block = true
  stopped : ∀ index ∈ (starts events).map Prod.fst, index ∈ stops events
  reason : ∃ event ∈ events, event.reason.isSome

/-! ### One event after others -/

/-- What the accumulator checks of an event, in terms of the events before it. -/
structure Admissible (before : List StreamEvent) (event : StreamEvent) : Prop where
  running : ∀ e ∈ before, e.isMessageStop = false
  start : event.isMessageStart = true ↔ before = []
  fresh : ∀ index block, event.starts = some (index, block) →
    index ∉ (starts before).map Prod.fst
  refers : ∀ index, event.refersTo = some index →
    ∃ block, (index, block) ∈ starts before ∧ index ∉ stops before ∧ event.fits block = true
  stop : event.isMessageStop = true →
    ∀ index ∈ (starts before).map Prod.fst, index ∈ stops before

/-- Every event is admissible after those before it. -/
def Accepted (events : List StreamEvent) : Prop :=
  ∀ before event after, events = before ++ event :: after → Admissible before event

theorem accepted_nil : Accepted [] := fun before _ _ h => by simp at h

theorem accepted_concat {events : List StreamEvent} {event : StreamEvent} :
    Accepted (events ++ [event]) ↔ Accepted events ∧ Admissible events event := by
  constructor
  · intro h
    refine ⟨fun before e after heq => ?_, h events event [] rfl⟩
    exact h before e (after ++ [event]) (by rw [heq]; simp)
  · intro h before e after heq
    rcases List.eq_nil_or_concat after with rfl | ⟨after, last, rfl⟩
    · obtain ⟨rfl, hlast⟩ := List.append_inj' heq rfl
      obtain rfl := List.head_eq_of_cons_eq hlast
      exact h.2
    · rw [List.concat_eq_append, ← List.cons_append, ← List.append_assoc] at heq
      exact h.1 before e after (List.append_inj' heq rfl).1

/-! ### Well-formed is accepted and complete -/

theorem starts_concat (events : List StreamEvent) (event : StreamEvent) :
    starts (events ++ [event]) = starts events ++ event.starts.toList := by
  unfold starts
  rw [List.filterMap_append]
  cases h : event.starts <;> simp [h]

theorem stops_concat (events : List StreamEvent) (event : StreamEvent) :
    stops (events ++ [event]) = stops events ++ event.stops.toList := by
  unfold stops
  rw [List.filterMap_append]
  cases h : event.stops <;> simp [h]

theorem Accepted.startedOnce {events : List StreamEvent} (h : Accepted events) :
    ((starts events).map Prod.fst).Nodup := by
  induction events using List.reverseRecOn with
  | nil => exact List.nodup_nil
  | append_singleton events event ih =>
    obtain ⟨hevents, hevent⟩ := accepted_concat.mp h
    rw [starts_concat]
    cases hstarts : event.starts with
    | none =>
      rw [Option.toList_none, List.append_nil]
      exact ih hevents
    | some x =>
      rw [Option.toList_some, List.map_append, List.map_singleton]
      apply List.nodup_append_comm.mp
      exact List.nodup_cons.mpr ⟨hevent.fresh x.1 x.2 hstarts, ih hevents⟩

/-- The only event that starts a message comes first. -/
theorem Accepted.start {first : StreamEvent} {rest : List StreamEvent}
    (h : Accepted (first :: rest)) :
    first.isMessageStart = true ∧ ∀ event ∈ rest, event.isMessageStart = false := by
  refine ⟨(h [] first rest rfl).start.mpr rfl, fun event hmem => ?_⟩
  obtain ⟨before, after, rfl⟩ := List.append_of_mem hmem
  have hadm := h (first :: before) event after rfl
  cases hstart : event.isMessageStart with
  | false => rfl
  | true => exact absurd (hadm.start.mp hstart) (List.cons_ne_nil _ _)

theorem wellFormed_iff {events : List StreamEvent} :
    WellFormed events ↔ Accepted events ∧
      (∃ last, events.getLast? = some last ∧ last.isMessageStop = true) ∧
      ∃ event ∈ events, event.reason.isSome := by
  constructor
  · intro h
    obtain ⟨front, last, hevents, hlast, hfront⟩ := h.stop
    refine ⟨fun before event after heq => ?_, ⟨last, by simp [hevents], hlast⟩, h.reason⟩
    -- What comes before an event lies in front of the message stop.
    have hbefore : before <+: front := by
      have hlen : before.length ≤ front.length := by
        have := congrArg List.length (heq.symm.trans hevents)
        simp at this
        omega
      have hleft : before <+: events := ⟨event :: after, heq.symm⟩
      exact List.prefix_of_prefix_length_le hleft ⟨[last], hevents.symm⟩ hlen
    constructor
    · exact fun e he => hfront e (hbefore.mem he)
    · obtain ⟨first, rest, hhead, hfirst, hrest⟩ := h.start
      cases before with
      | nil =>
        have hsame : first = event := List.head_eq_of_cons_eq (hhead.symm.trans heq)
        exact ⟨fun _ => rfl, fun _ => hsame ▸ hfirst⟩
      | cons b before =>
        have htail : rest = before ++ event :: after :=
          List.tail_eq_of_cons_eq (hhead.symm.trans heq)
        have hno := hrest event (by rw [htail]; simp)
        rw [hno]
        exact ⟨fun h => absurd h Bool.false_ne_true, fun h => absurd h (List.cons_ne_nil _ _)⟩
    · intro index block hstarts hmem
      have hnodup := h.startedOnce
      unfold starts at hnodup hmem
      rw [heq, List.filterMap_append, List.filterMap_cons_some hstarts, List.map_append,
        List.nodup_append] at hnodup
      exact hnodup.2.2 index hmem index (by simp) rfl
    · exact fun index hrefers => h.refers before event after heq index hrefers
    · intro hstop index hmem
      -- The message stop is the last event, so everything comes before it.
      have hafter : after = [] := by
        rcases List.eq_nil_or_concat after with hnil | ⟨after', e, rfl⟩
        · exact hnil
        · have hmid : event ∈ front := by
            have heq' := heq.symm.trans hevents
            rw [List.concat_eq_append, ← List.cons_append, ← List.append_assoc] at heq'
            rw [← (List.append_inj' heq' rfl).1]
            simp
          rw [hfront event hmid] at hstop
          cases hstop
      subst hafter
      have hnone : event.stops = none := by
        cases event <;> first | rfl | cases hstop
      have hall := h.stopped index (by
        rw [heq, starts_concat, List.map_append]
        exact List.mem_append_left _ hmem)
      rw [heq, stops_concat, hnone, Option.toList_none, List.append_nil] at hall
      exact hall
  · intro h
    obtain ⟨haccepted, ⟨last, hlast, hstop⟩, hreason⟩ := h
    obtain ⟨front, rfl⟩ := List.getLast?_eq_some_iff.mp hlast
    have hadm := (accepted_concat.mp haccepted).2
    constructor
    · cases hfront : front ++ [last] with
      | nil => simp at hfront
      | cons first rest =>
        rw [hfront] at haccepted
        exact ⟨first, rest, rfl, haccepted.start⟩
    · exact ⟨front, last, rfl, hstop, hadm.running⟩
    · exact haccepted.startedOnce
    · exact fun before event after heq => (haccepted before event after heq).refers
    · intro index hmem
      have hnone : last.starts = none := by
        cases last <;> first | rfl | cases hstop
      rw [starts_concat, hnone, Option.toList_none, List.append_nil] at hmem
      rw [stops_concat]
      exact List.mem_append_left _ (hadm.stop hstop index hmem)
    · exact hreason

end Accumulation

end Kyora
