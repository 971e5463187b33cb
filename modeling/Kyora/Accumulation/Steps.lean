import Kyora.Accumulation.WellFormed

/-! # What the accumulator holds

  After the events it accepted the accumulator holds, for each index, the block
  they describe, and for the message, what its own events add up to. It accepts
  an event exactly where the event is admissible.
-/

namespace Kyora.Accumulation

/-! ### The events of the message -/

/-- What the accumulator knows of the whole message. -/
structure Summary where
  header : Option (Option String × String)
  usage : Usage
  usageIterations : List UsageIteration
  stopReason : Option StopReason
  stopped : Bool

def Accumulator.summary (acc : Accumulator) : Summary :=
  ⟨acc.header, acc.usage, acc.usageIterations, acc.stopReason, acc.stopped⟩

/-- What an event changes for the whole message. -/
def Summary.mark (s : Summary) : StreamEvent → Summary
  | .messageStart id model usage => { s with header := some (id, model), usage := usage }
  | .messageDelta stopReason usage =>
    { s with stopReason := stopReason.or s.stopReason, usage := updateUsage s.usage usage }
  | .usageSnapshot model usage iterations =>
    { s with
      header := s.header.map fun header => (header.1, model)
      usage := usage
      usageIterations := iterations }
  | .messageStop => { s with stopped := true }
  | _ => s

def summaryOf (events : List StreamEvent) : Summary :=
  events.foldl Summary.mark Accumulator.new.summary

theorem summaryOf_concat (events : List StreamEvent) (event : StreamEvent) :
    summaryOf (events ++ [event]) = (summaryOf events).mark event := by
  unfold summaryOf
  rw [List.foldl_append]
  rfl

theorem summaryOf_stopped (events : List StreamEvent) :
    (summaryOf events).stopped = events.any StreamEvent.isMessageStop := by
  induction events using List.reverseRecOn with
  | nil => rfl
  | append_singleton events event ih =>
    rw [summaryOf_concat, List.any_append, ← ih]
    cases event <;> simp [Summary.mark, StreamEvent.isMessageStop]

theorem summaryOf_header (events : List StreamEvent) :
    (summaryOf events).header.isSome = events.any StreamEvent.isMessageStart := by
  induction events using List.reverseRecOn with
  | nil => rfl
  | append_singleton events event ih =>
    rw [summaryOf_concat, List.any_append, ← ih]
    cases event <;> simp [Summary.mark, StreamEvent.isMessageStart]

theorem summaryOf_stopReason (events : List StreamEvent) :
    (summaryOf events).stopReason.isSome = events.any fun e => e.reason.isSome := by
  induction events using List.reverseRecOn with
  | nil => rfl
  | append_singleton events event ih =>
    rw [summaryOf_concat, List.any_append, ← ih]
    cases event <;> simp [Summary.mark, StreamEvent.reason, Bool.or_comm]

/-! ### The events of a block -/

section Blocks

variable (fromStr : String → Option Json)

/-- The pending block of an index after some events. -/
def pendingOf (events : List StreamEvent) (index : Nat) (block : BlockStart) : PendingBlock where
  content :=
    match block with
    | .toolUse id name =>
      .toolUse id name
        (if index ∈ stops events then inputOf fromStr (argumentsOf events index) else .null)
    | block => contentOf fromStr events index block
  partialJson := argumentsOf events index
  closed := decide (index ∈ stops events)

/-- What an event that refers to a block makes of it, and whether it finds the
    tool input invalid. -/
def touch : StreamEvent → PendingBlock → Option (PendingBlock × Bool)
  | .textDelta _ text, b =>
    match b.content with
    | .text existing => some ({ b with content := .text (existing ++ text) }, false)
    | _ => none
  | .thinkingDelta _ thinking, b =>
    match b.content with
    | .thinking existing signature =>
      some ({ b with content := .thinking (existing ++ thinking) signature }, false)
    | _ => none
  | .signatureDelta _ signature, b =>
    match b.content with
    | .thinking thinking existing =>
      some ({ b with content := .thinking thinking (some (existing.getD "" ++ signature)) }, false)
    | _ => none
  | .toolInputDelta _ partialJson, b =>
    match b.content with
    | .toolUse _ _ _ => some ({ b with partialJson := b.partialJson ++ partialJson }, false)
    | _ => none
  | .blockStop _, b => some (b.stop fromStr)
  | _, _ => none

/-- The accumulator after an event that refers to a block. -/
def Accumulator.touched (acc : Accumulator) (index : Nat) (r : PendingBlock × Bool) :
    Accumulator :=
  { acc.setBlock index r.1 with
    invalidToolInputs :=
      if r.2 then acc.invalidToolInputs ++ [index] else acc.invalidToolInputs }

/-- What is said of a delta that does not fit its block. -/
def refusal : StreamEvent → ProviderError
  | .textDelta index _ => protocol s!"text delta for non-text block {index}"
  | .thinkingDelta index _ => protocol s!"thinking delta for non-thinking block {index}"
  | .signatureDelta index _ => protocol s!"signature delta for non-thinking block {index}"
  | .toolInputDelta index _ => protocol s!"tool input delta for non-tool block {index}"
  | _ => protocol ""

/-- What becomes of an accumulator whose block is touched or not. -/
def Accumulator.received (acc : Accumulator) (event : StreamEvent) (index : Nat) :
    Option (PendingBlock × Bool) → Except ProviderError Accumulator
  | some r => .ok (acc.touched index r)
  | none => .error (refusal event)

/-- The five events that refer to a block differ in what they do to it. -/
theorem onEvent_touch (acc : Accumulator) {event : StreamEvent} {index : Nat}
    (h : event.refersTo = some index) :
    acc.onEvent fromStr event =
      (acc.openBlock index).bind fun b => acc.received event index (touch fromStr event b) := by
  cases event with
  | messageStart id model usage => cases h
  | blockStart i block => cases h
  | textDelta i text =>
    obtain rfl := Option.some.inj h
    show (acc.openBlock i).bind _ = (acc.openBlock i).bind _
    congr 1
    funext b
    obtain ⟨content, partialJson, closed⟩ := b
    cases content <;> rfl
  | thinkingDelta i thinking =>
    obtain rfl := Option.some.inj h
    show (acc.openBlock i).bind _ = (acc.openBlock i).bind _
    congr 1
    funext b
    obtain ⟨content, partialJson, closed⟩ := b
    cases content <;> rfl
  | signatureDelta i signature =>
    obtain rfl := Option.some.inj h
    show (acc.openBlock i).bind _ = (acc.openBlock i).bind _
    congr 1
    funext b
    obtain ⟨content, partialJson, closed⟩ := b
    cases content <;> rfl
  | toolInputDelta i partialJson =>
    obtain rfl := Option.some.inj h
    show (acc.openBlock i).bind _ = (acc.openBlock i).bind _
    congr 1
    funext b
    obtain ⟨content, partialJson, closed⟩ := b
    cases content <;> rfl
  | blockStop i =>
    obtain rfl := Option.some.inj h
    show (acc.openBlock i).bind _ = (acc.openBlock i).bind _
    rfl
  | messageDelta stopReason usage => cases h
  | usageSnapshot model usage iterations => cases h
  | messageStop => cases h

end Blocks

/-! ### One more event -/

theorem partsOf_concat (part : StreamEvent → Option (Nat × String)) (events : List StreamEvent)
    (event : StreamEvent) (index : Nat) :
    partsOf part (events ++ [event]) index =
      partsOf part events index ++
        (((part event).toList.filter fun p => p.1 == index).map Prod.snd) := by
  unfold partsOf
  rw [List.filterMap_append, List.filter_append, List.map_append]
  cases hpart : part event <;> simp [hpart]

/-- An event of another index brings no part. -/
theorem partsOf_other {part : StreamEvent → Option (Nat × String)} {event : StreamEvent}
    {index : Nat} (hpart : ∀ p, part event = some p → event.index? = some p.1)
    (h : event.index? ≠ some index) (events : List StreamEvent) :
    partsOf part (events ++ [event]) index = partsOf part events index := by
  rw [partsOf_concat]
  cases hp : part event with
  | none => exact List.append_nil _
  | some p =>
    have hne : p.1 ≠ index := fun heq => h (by rw [hpart p hp, heq])
    simp [hne]

theorem index_textPart {event : StreamEvent} (p : Nat × String)
    (h : event.textPart = some p) : event.index? = some p.1 := by
  cases event <;> cases h
  rfl

theorem index_thinkingPart {event : StreamEvent} (p : Nat × String)
    (h : event.thinkingPart = some p) : event.index? = some p.1 := by
  cases event <;> cases h
  rfl

theorem index_signaturePart {event : StreamEvent} (p : Nat × String)
    (h : event.signaturePart = some p) : event.index? = some p.1 := by
  cases event <;> cases h
  rfl

theorem index_inputPart {event : StreamEvent} (p : Nat × String)
    (h : event.inputPart = some p) : event.index? = some p.1 := by
  cases event <;> cases h
  rfl

theorem index_stops {event : StreamEvent} {index : Nat} (h : event.stops = some index) :
    event.index? = some index := by
  cases event <;> cases h
  rfl

theorem index_starts {event : StreamEvent} {x : Nat × BlockStart} (h : event.starts = some x) :
    event.index? = some x.1 := by
  cases event <;> cases h
  rfl

theorem index_refersTo {event : StreamEvent} {index : Nat} (h : event.refersTo = some index) :
    event.index? = some index ∧ event.starts = none := by
  cases event <;> cases h <;> exact ⟨rfl, rfl⟩

section

variable {fromStr : String → Option Json}

theorem mem_stops_other {event : StreamEvent} {index : Nat} (h : event.index? ≠ some index)
    (events : List StreamEvent) : index ∈ stops (events ++ [event]) ↔ index ∈ stops events := by
  rw [stops_concat, List.mem_append, Option.mem_toList]
  exact or_iff_left fun hstops => h (index_stops hstops)

/-- A block is not touched by the events of other indices. -/
theorem pendingOf_other {event : StreamEvent} {index : Nat} (h : event.index? ≠ some index)
    (events : List StreamEvent) (block : BlockStart) :
    pendingOf fromStr (events ++ [event]) index block = pendingOf fromStr events index block := by
  have htext := partsOf_other index_textPart h events
  have hthinking := partsOf_other index_thinkingPart h events
  have hsignature := partsOf_other index_signaturePart h events
  have hinput := partsOf_other index_inputPart h events
  have hstops := mem_stops_other h events
  unfold pendingOf argumentsOf
  rw [hinput]
  cases block <;> simp only [contentOf, signatureOf, htext, hthinking, hsignature, hstops]

theorem lookup_other {event : StreamEvent} {index : Nat} (h : event.index? ≠ some index)
    (events : List StreamEvent) :
    (starts (events ++ [event])).lookup index = (starts events).lookup index := by
  rw [starts_concat, List.lookup_append]
  cases hstarts : event.starts with
  | none => exact Option.or_none
  | some x =>
    have hne : index ≠ x.1 := fun heq => h (by rw [index_starts hstarts, heq])
    rw [Option.toList_some, SortedMap.lookup_cons_ite, if_neg hne, List.lookup_nil, Option.or_none]

theorem invalidInput_other {event : StreamEvent} {index : Nat} (h : event.index? ≠ some index)
    (events : List StreamEvent) :
    invalidInput fromStr (events ++ [event]) index = invalidInput fromStr events index := by
  have hinput := partsOf_other index_inputPart h events
  unfold invalidInput argumentsOf
  rw [lookup_other h, hinput]

/-! An event of the index itself brings one part, or none of that kind. -/

theorem partsOf_none {part : StreamEvent → Option (Nat × String)} {event : StreamEvent}
    (h : part event = none) (events : List StreamEvent) (index : Nat) :
    partsOf part (events ++ [event]) index = partsOf part events index := by
  rw [partsOf_concat, h]
  exact List.append_nil _

theorem join_partsOf {part : StreamEvent → Option (Nat × String)} {event : StreamEvent}
    {index : Nat} {text : String} (h : part event = some (index, text))
    (events : List StreamEvent) :
    String.join (partsOf part (events ++ [event]) index) =
      String.join (partsOf part events index) ++ text := by
  rw [partsOf_concat, h]
  simp [String.join_append]

theorem signatureOf_eq (events : List StreamEvent) (index : Nat) :
    signatureOf events index =
      if partsOf StreamEvent.signaturePart events index = [] then none
      else some (String.join (partsOf StreamEvent.signaturePart events index)) := by
  unfold signatureOf
  cases partsOf StreamEvent.signaturePart events index <;> rfl

theorem signatureOf_concat (events : List StreamEvent) (index : Nat) (signature : String) :
    signatureOf (events ++ [.signatureDelta index signature]) index =
      some ((signatureOf events index).getD "" ++ signature) := by
  have hjoin : String.join (partsOf StreamEvent.signaturePart
      (events ++ [.signatureDelta index signature]) index) =
        String.join (partsOf StreamEvent.signaturePart events index) ++ signature :=
    join_partsOf rfl events
  have hparts : partsOf StreamEvent.signaturePart
      (events ++ [.signatureDelta index signature]) index ≠ [] := by
    rw [partsOf_concat]
    simp [StreamEvent.signaturePart]
  rw [signatureOf_eq, signatureOf_eq, if_neg hparts, hjoin]
  by_cases hnone : partsOf StreamEvent.signaturePart events index = []
  · rw [if_pos hnone, hnone]
    rfl
  · rw [if_neg hnone]
    rfl

theorem toolInput_eq (text : String) :
    toolInput fromStr text =
      (inputOf fromStr text, text != "" && (fromStr text).isNone) := by
  unfold toolInput inputOf
  by_cases hempty : text = ""
  · rw [if_pos hempty, if_pos hempty, hempty]
    rfl
  · rw [if_neg hempty, if_neg hempty]
    cases fromStr text with
    | none => simp [hempty]
    | some value => simp

theorem pendingOf_text (events : List StreamEvent) (index : Nat) :
    pendingOf fromStr events index .text =
      ⟨.text (String.join (partsOf StreamEvent.textPart events index)),
        argumentsOf events index, decide (index ∈ stops events)⟩ := rfl

theorem pendingOf_thinking (events : List StreamEvent) (index : Nat) :
    pendingOf fromStr events index .thinking =
      ⟨.thinking (String.join (partsOf StreamEvent.thinkingPart events index))
        (signatureOf events index), argumentsOf events index, decide (index ∈ stops events)⟩ := rfl

theorem pendingOf_toolUse (events : List StreamEvent) (index : Nat) (id name : String) :
    pendingOf fromStr events index (.toolUse id name) =
      ⟨.toolUse id name
          (if index ∈ stops events then inputOf fromStr (argumentsOf events index) else .null),
        argumentsOf events index, decide (index ∈ stops events)⟩ := rfl

theorem pendingOf_opaqueBlock (events : List StreamEvent) (index : Nat) (provider kind : String)
    (raw : Json) :
    pendingOf fromStr events index (.opaqueBlock provider kind raw) =
      ⟨.opaqueBlock provider kind raw, argumentsOf events index,
        decide (index ∈ stops events)⟩ := rfl

theorem argumentsOf_none {event : StreamEvent} (h : event.inputPart = none)
    (events : List StreamEvent) (index : Nat) :
    argumentsOf (events ++ [event]) index = argumentsOf events index := by
  unfold argumentsOf
  rw [partsOf_none h]

theorem signatureOf_none {event : StreamEvent} (h : event.signaturePart = none)
    (events : List StreamEvent) (index : Nat) :
    signatureOf (events ++ [event]) index = signatureOf events index := by
  unfold signatureOf
  rw [partsOf_none h]

theorem stops_none {event : StreamEvent} (h : event.stops = none) (events : List StreamEvent) :
    stops (events ++ [event]) = stops events := by
  rw [stops_concat, h]
  exact List.append_nil _

/-- A block that is open takes the events of its kind. -/
theorem touch_pendingOf {events : List StreamEvent} {event : StreamEvent} {index : Nat}
    {block : BlockStart} (h : event.refersTo = some index)
    (hblock : (starts events).lookup index = some block) (hopen : index ∉ stops events) :
    touch fromStr event (pendingOf fromStr events index block) =
      if event.fits block then
        some (pendingOf fromStr (events ++ [event]) index block,
          event.stops.isSome && invalidInput fromStr events index)
      else none := by
  cases event with
  | messageStart id model usage => cases h
  | blockStart i block => cases h
  | textDelta i text =>
    obtain rfl := Option.some.inj h
    cases block with
    | text =>
      rw [pendingOf_text, pendingOf_text, join_partsOf rfl, argumentsOf_none rfl, stops_none rfl]
      rfl
    | thinking => rfl
    | toolUse id name => rfl
    | opaqueBlock provider kind raw => rfl
  | thinkingDelta i thinking =>
    obtain rfl := Option.some.inj h
    cases block with
    | text => rfl
    | thinking =>
      rw [pendingOf_thinking, pendingOf_thinking, join_partsOf rfl, signatureOf_none rfl,
        argumentsOf_none rfl, stops_none rfl]
      rfl
    | toolUse id name => rfl
    | opaqueBlock provider kind raw => rfl
  | signatureDelta i signature =>
    obtain rfl := Option.some.inj h
    cases block with
    | text => rfl
    | thinking =>
      rw [pendingOf_thinking, pendingOf_thinking, partsOf_none rfl, signatureOf_concat,
        argumentsOf_none rfl, stops_none rfl]
      rfl
    | toolUse id name => rfl
    | opaqueBlock provider kind raw => rfl
  | toolInputDelta i partialJson =>
    obtain rfl := Option.some.inj h
    cases block with
    | text => rfl
    | thinking => rfl
    | toolUse id name =>
      have hinput : argumentsOf (events ++ [.toolInputDelta i partialJson]) i =
          argumentsOf events i ++ partialJson := join_partsOf rfl events
      rw [pendingOf_toolUse, pendingOf_toolUse, stops_none rfl, if_neg hopen, if_neg hopen, hinput]
      rfl
    | opaqueBlock provider kind raw => rfl
  | blockStop i =>
    obtain rfl := Option.some.inj h
    have hstops : i ∈ stops (events ++ [.blockStop i]) := by
      rw [stops_concat]
      exact List.mem_append_right _ List.mem_cons_self
    unfold invalidInput
    rw [hblock]
    cases block with
    | text =>
      rw [pendingOf_text, pendingOf_text, partsOf_none rfl, argumentsOf_none rfl,
        decide_eq_true hstops]
      rfl
    | thinking =>
      rw [pendingOf_thinking, pendingOf_thinking, partsOf_none rfl, signatureOf_none rfl,
        argumentsOf_none rfl, decide_eq_true hstops]
      rfl
    | toolUse id name =>
      rw [pendingOf_toolUse, pendingOf_toolUse, if_pos hstops, argumentsOf_none rfl,
        decide_eq_true hstops]
      show some (PendingBlock.mk (.toolUse id name (toolInput fromStr _).1) _ _,
        (toolInput fromStr _).2) = _
      rw [toolInput_eq]
      rfl
    | opaqueBlock provider kind raw =>
      rw [pendingOf_opaqueBlock, pendingOf_opaqueBlock, argumentsOf_none rfl,
        decide_eq_true hstops]
      rfl
  | messageDelta stopReason usage => cases h
  | usageSnapshot model usage iterations => cases h
  | messageStop => cases h

/-! ### The invariant -/

variable (fromStr) in
/-- What the accumulator holds after the events it accepted. -/
structure Holds (acc : Accumulator) (events : List StreamEvent) : Prop where
  summary : acc.summary = summaryOf events
  blocks : ∀ index, acc.blocks.get? index =
    ((starts events).lookup index).map (pendingOf fromStr events index)
  invalid : acc.invalidToolInputs = (stops events).filter (invalidInput fromStr events)

theorem holds_new : Holds fromStr Accumulator.new [] := ⟨rfl, fun _ => rfl, rfl⟩

theorem lookup_isSome_iff {events : List StreamEvent} {index : Nat} :
    ((starts events).lookup index).isSome ↔ index ∈ (starts events).map Prod.fst := by
  rw [Option.isSome_iff_ne_none, ne_eq, List.lookup_eq_none_iff]
  simp

/-- A block that has not started was not referred to. -/
theorem Accepted.index_ne {events : List StreamEvent} (h : Accepted events) {index : Nat}
    (hfresh : index ∉ (starts events).map Prod.fst) :
    ∀ event ∈ events, event.index? ≠ some index := by
  intro event hmem hindex
  obtain ⟨before, after, rfl⟩ := List.append_of_mem hmem
  have hadm := h before event after rfl
  apply hfresh
  unfold starts
  rw [List.filterMap_append, List.map_append, List.mem_append]
  cases hstarts : event.starts with
  | some x =>
    have hx : x.1 = index := Option.some.inj ((index_starts hstarts).symm.trans hindex)
    rw [List.filterMap_cons_some hstarts, List.map_cons, hx]
    exact .inr List.mem_cons_self
  | none =>
    have hrefers : event.refersTo = some index := by
      cases event <;> first | exact hindex | cases hstarts
    obtain ⟨block, hblock, -⟩ := hadm.refers index hrefers
    exact .inl (List.mem_map.mpr ⟨(index, block), hblock, rfl⟩)

theorem partsOf_eq_nil {part : StreamEvent → Option (Nat × String)}
    (hpart : ∀ {event : StreamEvent} (p : Nat × String), part event = some p →
      event.index? = some p.1) {events : List StreamEvent} {index : Nat}
    (h : ∀ event ∈ events, event.index? ≠ some index) : partsOf part events index = [] := by
  induction events using List.reverseRecOn with
  | nil => rfl
  | append_singleton events event ih =>
    rw [partsOf_other hpart (h event (List.mem_append_right _ List.mem_cons_self))]
    exact ih fun e he => h e (List.mem_append_left _ he)

theorem not_mem_stops {events : List StreamEvent} {index : Nat}
    (h : ∀ event ∈ events, event.index? ≠ some index) : index ∉ stops events := by
  intro hmem
  obtain ⟨event, hevent, hstops⟩ := List.mem_filterMap.mp hmem
  exact h event hevent (index_stops hstops)

/-- A block that has just started. -/
theorem pendingOf_start {events : List StreamEvent} {index : Nat}
    (h : ∀ event ∈ events, event.index? ≠ some index) (block : BlockStart) :
    pendingOf fromStr (events ++ [.blockStart index block]) index block =
      ⟨startContent block, "", false⟩ := by
  have hstops : ¬index ∈ stops events := not_mem_stops h
  have hinput : argumentsOf (events ++ [.blockStart index block]) index = "" := by
    rw [argumentsOf_none rfl]
    exact congrArg String.join (partsOf_eq_nil index_inputPart h)
  cases block with
  | text =>
    rw [pendingOf_text, hinput, stops_none rfl, decide_eq_false hstops, partsOf_none rfl,
      partsOf_eq_nil index_textPart h]
    rfl
  | thinking =>
    have hsignature : signatureOf events index = none := by
      unfold signatureOf
      rw [partsOf_eq_nil index_signaturePart h]
    rw [pendingOf_thinking, hinput, stops_none rfl, decide_eq_false hstops, partsOf_none rfl,
      signatureOf_none rfl, hsignature, partsOf_eq_nil index_thinkingPart h]
    rfl
  | toolUse id name =>
    rw [pendingOf_toolUse, hinput, stops_none rfl, decide_eq_false hstops, if_neg hstops]
    rfl
  | opaqueBlock provider kind raw =>
    rw [pendingOf_opaqueBlock, hinput, stops_none rfl, decide_eq_false hstops]
    rfl

/-! ### An admissible event -/

/-- An event of the message leaves every block as it is. -/
theorem Holds.message {acc acc' : Accumulator} {events : List StreamEvent}
    (h : Holds fromStr acc events) {event : StreamEvent} (hindex : event.index? = none)
    (hsummary : acc'.summary = acc.summary.mark event) (hblocks : acc'.blocks = acc.blocks)
    (hinvalid : acc'.invalidToolInputs = acc.invalidToolInputs) :
    Holds fromStr acc' (events ++ [event]) := by
  have hother : ∀ index, event.index? ≠ some index := fun index heq => by
    rw [hindex] at heq
    cases heq
  have hstops : event.stops = none := by
    cases hs : event.stops with
    | none => rfl
    | some index => exact absurd (index_stops hs) (hother index)
  constructor
  · rw [hsummary, h.summary, summaryOf_concat]
  · intro index
    rw [hblocks, h.blocks, lookup_other (hother index)]
    congr 1
    funext block
    exact (pendingOf_other (hother index) events block).symm
  · rw [hinvalid, h.invalid, stops_none hstops]
    congr 1
    funext index
    exact (invalidInput_other (hother index) events).symm

/-- The start of a block that has not started. -/
theorem Holds.blockStart {acc : Accumulator} {events : List StreamEvent}
    (h : Holds fromStr acc events) {index : Nat}
    (hfresh : ∀ event ∈ events, event.index? ≠ some index) (block : BlockStart) :
    Holds fromStr
      { acc with blocks := acc.blocks.insert index ⟨startContent block, "", false⟩ }
      (events ++ [.blockStart index block]) := by
  have hother : ∀ i, i ≠ index → (StreamEvent.blockStart index block).index? ≠ some i :=
    fun i hne heq => hne (Option.some.inj heq).symm
  constructor
  · rw [summaryOf_concat, ← h.summary]
    rfl
  · intro i
    rw [SortedMap.get?_insert]
    by_cases hi : i = index
    · have hnone : (starts events).lookup i = none := by
        rw [← Option.not_isSome_iff_eq_none, lookup_isSome_iff]
        intro hmem
        obtain ⟨x, hx, rfl⟩ := List.mem_map.mp hmem
        obtain ⟨event, hevent, hstarts⟩ := List.mem_filterMap.mp hx
        exact hfresh event hevent (hi ▸ index_starts hstarts)
      subst hi
      rw [if_pos rfl, starts_concat, List.lookup_append, hnone, Option.none_or]
      show _ = Option.map _ ([(i, block)].lookup i)
      rw [SortedMap.lookup_cons_ite, if_pos rfl, Option.map_some, pendingOf_start hfresh]
    · rw [if_neg hi, h.blocks, lookup_other (hother i hi)]
      congr 1
      funext b
      exact (pendingOf_other (hother i hi) events b).symm
  · show acc.invalidToolInputs = _
    rw [h.invalid, stops_none rfl]
    apply List.filter_congr
    intro i hi
    have hne : i ≠ index := fun heq => not_mem_stops hfresh (heq ▸ hi)
    exact (invalidInput_other (hother i hne) events).symm

theorem Holds.openBlock {acc : Accumulator} {events : List StreamEvent}
    (h : Holds fromStr acc events) {index : Nat} {block : BlockStart}
    (hblock : (starts events).lookup index = some block) (hopen : index ∉ stops events) :
    acc.openBlock index = .ok (pendingOf fromStr events index block) := by
  have hclosed : (pendingOf fromStr events index block).closed = false := decide_eq_false hopen
  unfold Accumulator.openBlock
  rw [h.blocks, hblock, Option.map_some]
  dsimp only
  rw [hclosed]
  rfl

/-- A block that is not there or has stopped cannot be opened. -/
theorem Holds.openBlock_error {acc : Accumulator} {events : List StreamEvent}
    (h : Holds fromStr acc events) {index : Nat}
    (hno : (starts events).lookup index = none ∨ index ∈ stops events) :
    ∃ error, acc.openBlock index = .error error := by
  unfold Accumulator.openBlock
  rw [h.blocks]
  cases hblock : (starts events).lookup index with
  | none => exact ⟨_, rfl⟩
  | some block =>
    rcases hno with hnone | hstopped
    · rw [hnone] at hblock
      cases hblock
    · have hclosed : (pendingOf fromStr events index block).closed = true :=
        decide_eq_true hstopped
      rw [Option.map_some]
      dsimp only
      rw [hclosed]
      exact ⟨_, rfl⟩

/-- A delta or a stop of an open block. -/
theorem Holds.touched {acc : Accumulator} {events : List StreamEvent}
    (h : Holds fromStr acc events) {event : StreamEvent} {index : Nat} {block : BlockStart}
    (hrefers : event.refersTo = some index)
    (hblock : (starts events).lookup index = some block) (hopen : index ∉ stops events) :
    Holds fromStr (acc.touched index (pendingOf fromStr (events ++ [event]) index block,
      event.stops.isSome && invalidInput fromStr events index)) (events ++ [event]) := by
  obtain ⟨hindex, hstarts⟩ := index_refersTo hrefers
  have hother : ∀ i, i ≠ index → event.index? ≠ some i :=
    fun i hne heq => hne (Option.some.inj (heq.symm.trans hindex))
  constructor
  · rw [summaryOf_concat, ← h.summary]
    cases event <;> first | rfl | cases hrefers
  · intro i
    show (acc.blocks.modify index _).get? i = _
    rw [SortedMap.get?_modify, h.blocks]
    by_cases hi : i = index
    · subst hi
      rw [if_pos rfl, starts_concat, hstarts, Option.toList_none, List.append_nil, hblock]
      rfl
    · rw [if_neg hi, lookup_other (hother i hi)]
      congr 1
      funext b
      exact (pendingOf_other (hother i hi) events b).symm
  · have hsame : (stops events).filter (invalidInput fromStr events) =
        (stops events).filter (invalidInput fromStr (events ++ [event])) := by
      apply List.filter_congr
      intro i hi
      have hne : i ≠ index := fun heq => hopen (heq ▸ hi)
      exact (invalidInput_other (hother i hne) events).symm
    show (if (event.stops.isSome && invalidInput fromStr events index) = true then
      acc.invalidToolInputs ++ [index] else acc.invalidToolInputs) = _
    rw [stops_concat, List.filter_append, ← hsame, ← h.invalid]
    cases hstops : event.stops with
    | none => simp
    | some i =>
      -- Only a stop brings no part, so the arguments are those before it.
      have hi : i = index := Option.some.inj ((index_stops hstops).symm.trans hindex)
      have hinput : event.inputPart = none := by
        cases event <;> first | rfl | cases hstops
      have hkeep : invalidInput fromStr (events ++ [event]) index =
          invalidInput fromStr events index := by
        unfold invalidInput
        rw [argumentsOf_none hinput, starts_concat, hstarts, Option.toList_none, List.append_nil]
      rw [hi]
      cases hinvalid : invalidInput fromStr events index with
      | true => simp [hkeep, hinvalid]
      | false => simp [hkeep, hinvalid]

/-! ### Every event -/

theorem Holds.stopped {acc : Accumulator} {events : List StreamEvent}
    (h : Holds fromStr acc events) : acc.stopped = events.any StreamEvent.isMessageStop := by
  rw [← summaryOf_stopped, ← h.summary]
  rfl

theorem Holds.header {acc : Accumulator} {events : List StreamEvent}
    (h : Holds fromStr acc events) :
    acc.header.isSome = events.any StreamEvent.isMessageStart := by
  rw [← summaryOf_header, ← h.summary]
  rfl

variable (fromStr) in
/-- The outcome of a push: accepted exactly where it is admissible. -/
def Pushed (events : List StreamEvent) (event : StreamEvent)
    (result : Except ProviderError Accumulator) : Prop :=
  (Admissible events event ∧ ∃ acc, result = .ok acc ∧ Holds fromStr acc (events ++ [event])) ∨
    (¬ Admissible events event ∧ ∃ error, result = .error error)

/-- A delta or a stop. -/
theorem pushed_refers {acc : Accumulator} {events : List StreamEvent}
    (h : Holds fromStr acc events) (haccepted : Accepted events)
    (hrun : ∀ e ∈ events, e.isMessageStop = false) (hne : events ≠ [])
    {event : StreamEvent} {index : Nat} (hrefers : event.refersTo = some index) :
    Pushed fromStr events event (acc.onEvent fromStr event) := by
  have hstarts : event.starts = none := (index_refersTo hrefers).2
  have hstart : event.isMessageStart = false := by
    cases event <;> first | rfl | cases hrefers
  have hstop : event.isMessageStop = false := by
    cases event <;> first | rfl | cases hrefers
  rw [onEvent_touch fromStr acc hrefers]
  by_cases hopen : (starts events).lookup index = none ∨ index ∈ stops events
  · -- The block is not there, or it has stopped.
    obtain ⟨e, he⟩ := h.openBlock_error hopen
    refine .inr ⟨fun hadm => ?_, e, by rw [he]; rfl⟩
    obtain ⟨block, hblock, hrunning, -⟩ := hadm.refers index hrefers
    rcases hopen with hnone | hstopped
    · have hsome := lookup_isSome_iff.mpr (List.mem_map.mpr ⟨(index, block), hblock, rfl⟩)
      rw [hnone] at hsome
      cases hsome
    · exact hrunning hstopped
  · rw [not_or] at hopen
    obtain ⟨hsome, hrunning⟩ := hopen
    obtain ⟨block, hblock⟩ := Option.ne_none_iff_exists'.mp hsome
    rw [h.openBlock hblock hrunning]
    show Pushed fromStr events event (acc.received event index (touch fromStr event _))
    rw [touch_pendingOf hrefers hblock hrunning]
    have hmem := (Objects.lookup_eq_some_iff haccepted.startedOnce).mp hblock
    cases hfits : event.fits block with
    | true =>
      refine .inl ⟨⟨hrun, ?_, ?_, ?_, ?_⟩, _, rfl, h.touched hrefers hblock hrunning⟩
      · rw [hstart]
        exact ⟨fun heq => absurd heq Bool.false_ne_true, fun heq => absurd heq hne⟩
      · intro i b heq
        rw [hstarts] at heq
        cases heq
      · intro i heq
        obtain rfl := Option.some.inj (hrefers.symm.trans heq)
        exact ⟨block, hmem, hrunning, hfits⟩
      · intro heq
        rw [hstop] at heq
        cases heq
    | false =>
      refine .inr ⟨fun hadm => ?_, _, rfl⟩
      obtain ⟨block', hblock', -, hfits'⟩ := hadm.refers index hrefers
      have hsame := (Objects.lookup_eq_some_iff haccepted.startedOnce).mpr hblock'
      obtain rfl := Option.some.inj (hblock.symm.trans hsame)
      rw [hfits] at hfits'
      cases hfits'

/-- An event of the message that is always accepted once the message has begun. -/
theorem pushed_message {acc : Accumulator} {events : List StreamEvent}
    (hrun : ∀ e ∈ events, e.isMessageStop = false) (hne : events ≠ []) {event : StreamEvent}
    (hindex : event.index? = none) (hstart : event.isMessageStart = false)
    (hstop : event.isMessageStop = true →
      ∀ index ∈ (starts events).map Prod.fst, index ∈ stops events)
    (h : Holds fromStr acc (events ++ [event])) : Pushed fromStr events event (.ok acc) := by
  refine .inl ⟨⟨hrun, ?_, ?_, ?_, hstop⟩, acc, rfl, h⟩
  · rw [hstart]
    exact ⟨fun heq => absurd heq Bool.false_ne_true, fun heq => absurd heq hne⟩
  · intro index block hstarts
    rw [index_starts hstarts] at hindex
    cases hindex
  · intro index hrefers
    rw [(index_refersTo hrefers).1] at hindex
    cases hindex

theorem pushed_blockStart {acc : Accumulator} {events : List StreamEvent}
    (h : Holds fromStr acc events) (haccepted : Accepted events)
    (hrun : ∀ e ∈ events, e.isMessageStop = false) (hne : events ≠ [])
    (index : Nat) (block : BlockStart) :
    Pushed fromStr events (.blockStart index block)
      (acc.onEvent fromStr (.blockStart index block)) := by
  unfold Accumulator.onEvent
  dsimp only
  rw [h.blocks]
  cases hblock : (starts events).lookup index with
  | some b =>
    refine .inr ⟨fun hadm => ?_, _, rfl⟩
    exact hadm.fresh index block rfl (lookup_isSome_iff.mp (by rw [hblock]; rfl))
  | none =>
    have hfresh : index ∉ (starts events).map Prod.fst := fun hmem => by
      have hsome := lookup_isSome_iff.mpr hmem
      rw [hblock] at hsome
      cases hsome
    refine .inl ⟨⟨hrun, ?_, ?_, ?_, ?_⟩, _, rfl, h.blockStart (haccepted.index_ne hfresh) block⟩
    · exact ⟨fun heq => absurd heq Bool.false_ne_true, fun heq => absurd heq hne⟩
    · intro i b hstarts
      obtain ⟨rfl, -⟩ := Prod.mk.inj (Option.some.inj hstarts)
      exact hfresh
    · exact fun i heq => absurd heq (by simp [StreamEvent.refersTo])
    · exact fun heq => absurd heq Bool.false_ne_true

/-- A pending block is open exactly where its index has not stopped. -/
theorem Holds.all_closed {acc : Accumulator} {events : List StreamEvent}
    (h : Holds fromStr acc events) :
    (acc.blocks.values.any fun block => !block.closed) = false ↔
      ∀ index ∈ (starts events).map Prod.fst, index ∈ stops events := by
  rw [List.any_eq_false]
  constructor
  · intro hall index hmem
    obtain ⟨block, hblock⟩ := Option.isSome_iff_exists.mp (lookup_isSome_iff.mpr hmem)
    have hvalue : pendingOf fromStr events index block ∈ acc.blocks.values :=
      SortedMap.mem_values_iff.mpr ⟨index, by rw [h.blocks, hblock]; rfl⟩
    have hclosed := hall _ hvalue
    rw [Bool.not_eq_true', Bool.not_eq_false] at hclosed
    exact of_decide_eq_true hclosed
  · intro hall b hvalue
    obtain ⟨index, hget⟩ := SortedMap.mem_values_iff.mp hvalue
    rw [h.blocks] at hget
    obtain ⟨block, hblock, rfl⟩ := Option.map_eq_some_iff.mp hget
    have hstopped := hall index (lookup_isSome_iff.mp (by rw [hblock]; rfl))
    rw [Bool.not_eq_true', Bool.not_eq_false]
    exact decide_eq_true hstopped

theorem pushed_messageStop {acc : Accumulator} {events : List StreamEvent}
    (h : Holds fromStr acc events) (hrun : ∀ e ∈ events, e.isMessageStop = false)
    (hne : events ≠ []) :
    Pushed fromStr events .messageStop (acc.onEvent fromStr .messageStop) := by
  unfold Accumulator.onEvent
  dsimp only
  cases hopen : acc.blocks.values.any fun block => !block.closed with
  | true =>
    refine .inr ⟨fun hadm => ?_, _, rfl⟩
    rw [h.all_closed.mpr (hadm.stop rfl)] at hopen
    cases hopen
  | false =>
    exact pushed_message hrun hne rfl rfl (fun _ => h.all_closed.mp hopen)
      (h.message rfl rfl rfl rfl)

/-- A push accepts exactly the events that are admissible. -/
theorem pushed {acc : Accumulator} {events : List StreamEvent}
    (h : Holds fromStr acc events) (haccepted : Accepted events) (event : StreamEvent) :
    Pushed fromStr events event (acc.push fromStr event) := by
  have hstopped := h.stopped
  have hheader := h.header
  unfold Accumulator.push
  by_cases hrun : ∀ e ∈ events, e.isMessageStop = false
  · have hnot : acc.stopped = false := by
      rw [hstopped, List.any_eq_false]
      exact fun e he => by rw [hrun e he]; exact Bool.false_ne_true
    rw [hnot]
    by_cases hne : events = []
    · subst hne
      have hnone : acc.header = none := by
        cases hsome : acc.header with
        | none => rfl
        | some header =>
          rw [hsome] at hheader
          cases hheader
      rw [hnone]
      have hother : event.isMessageStart = false → ¬ Admissible [] event := fun hno hadm => by
        rw [hadm.start.mpr rfl] at hno
        cases hno
      cases event with
      | messageStart id model usage =>
        unfold Accumulator.onEvent
        dsimp only
        rw [hnone]
        refine .inl ⟨⟨hrun, ⟨fun _ => rfl, fun _ => rfl⟩, ?_, ?_, ?_⟩, _, rfl,
          h.message rfl rfl rfl rfl⟩
        · exact fun i b heq => absurd heq (by simp [StreamEvent.starts])
        · exact fun i heq => absurd heq (by simp [StreamEvent.refersTo])
        · exact fun heq => absurd heq Bool.false_ne_true
      | blockStart i block => exact .inr ⟨hother rfl, _, rfl⟩
      | textDelta i text => exact .inr ⟨hother rfl, _, rfl⟩
      | thinkingDelta i thinking => exact .inr ⟨hother rfl, _, rfl⟩
      | signatureDelta i signature => exact .inr ⟨hother rfl, _, rfl⟩
      | toolInputDelta i partialJson => exact .inr ⟨hother rfl, _, rfl⟩
      | blockStop i => exact .inr ⟨hother rfl, _, rfl⟩
      | messageDelta stopReason usage => exact .inr ⟨hother rfl, _, rfl⟩
      | usageSnapshot model usage iterations => exact .inr ⟨hother rfl, _, rfl⟩
      | messageStop => exact .inr ⟨hother rfl, _, rfl⟩
    · -- The message has begun, so `push` goes on to its match.
      have hsome : acc.header.isSome = true := by
        obtain ⟨first, rest, rfl⟩ := List.exists_cons_of_ne_nil hne
        rw [hheader, List.any_cons, haccepted.start.1]
        rfl
      obtain ⟨header, hheader⟩ := Option.isSome_iff_exists.mp hsome
      rw [hheader]
      show Pushed fromStr events event (acc.onEvent fromStr event)
      cases event with
      | messageStart id model usage =>
        unfold Accumulator.onEvent
        dsimp only
        rw [hsome]
        exact .inr ⟨fun hadm => hne (hadm.start.mp rfl), _, rfl⟩
      | blockStart i block => exact pushed_blockStart h haccepted hrun hne i block
      | textDelta i text => exact pushed_refers h haccepted hrun hne rfl
      | thinkingDelta i thinking => exact pushed_refers h haccepted hrun hne rfl
      | signatureDelta i signature => exact pushed_refers h haccepted hrun hne rfl
      | toolInputDelta i partialJson => exact pushed_refers h haccepted hrun hne rfl
      | blockStop i => exact pushed_refers h haccepted hrun hne rfl
      | messageDelta stopReason usage =>
        exact pushed_message hrun hne rfl rfl (fun heq => absurd heq Bool.false_ne_true)
          (h.message rfl rfl rfl rfl)
      | usageSnapshot model usage iterations =>
        exact pushed_message hrun hne rfl rfl (fun heq => absurd heq Bool.false_ne_true)
          (h.message rfl rfl rfl rfl)
      | messageStop => exact pushed_messageStop h hrun hne
  · -- Nothing is accepted after the message stop.
    have hyes : acc.stopped = true := by
      rw [hstopped, List.any_eq_true]
      push Not at hrun
      obtain ⟨e, he, hstop⟩ := hrun
      exact ⟨e, he, by simpa using hstop⟩
    rw [hyes]
    exact .inr ⟨fun hadm => hrun hadm.running, _, rfl⟩

/-- All events are pushed exactly where each is admissible after those before it. -/
theorem pushAll (events : List StreamEvent) :
    (Accepted events ∧ ∃ acc,
      events.foldlM (Accumulator.push fromStr) Accumulator.new = .ok acc ∧
        Holds fromStr acc events) ∨
    (¬ Accepted events ∧ ∃ error,
      events.foldlM (Accumulator.push fromStr) Accumulator.new = .error error) := by
  induction events using List.reverseRecOn with
  | nil => exact .inl ⟨accepted_nil, _, rfl, holds_new⟩
  | append_singleton events event ih =>
    rw [List.foldlM_append]
    rcases ih with ⟨haccepted, acc, hfold, h⟩ | ⟨hno, error, hfold⟩
    · rw [hfold]
      show (_ ∧ ∃ acc', (List.foldlM (Accumulator.push fromStr) acc [event]) = .ok acc' ∧ _) ∨
        (_ ∧ ∃ error, (List.foldlM (Accumulator.push fromStr) acc [event]) = .error error)
      rw [List.foldlM_cons, accepted_concat]
      rcases pushed h haccepted event with ⟨hadm, acc', hpush, h'⟩ | ⟨hnot, error, hpush⟩
      · rw [hpush]
        exact .inl ⟨⟨haccepted, hadm⟩, acc', rfl, h'⟩
      · rw [hpush]
        exact .inr ⟨fun hboth => hnot hboth.2, error, rfl⟩
    · rw [hfold]
      exact .inr ⟨fun hall => hno (accepted_concat.mp hall).1, error, rfl⟩

end

end Kyora.Accumulation
