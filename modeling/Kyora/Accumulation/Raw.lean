import Kyora.Accumulation.Reorder
import Mathlib.Data.String.Basic

/-! # The raw input of malformed calls

  `Runtime::stream` reads the events of an attempt twice: the accumulator builds
  the response from them, and a map beside it keeps the id and the input deltas
  of each tool use. At the end the indices that the accumulator could not parse
  are looked up in the map.
-/

namespace Kyora

/-- A part of the answer, which is recorded as it comes. -/
def StreamEvent.isDelta : StreamEvent → Bool
  | .textDelta _ _ | .signatureDelta _ _ | .thinkingDelta _ _ | .toolInputDelta _ _ => true
  | _ => false

namespace Accumulation

/-! ### The loop of `stream` -/

/-- What comes of one turn of the loop outside it: the event or the error of the
    provider's stream, a timeout among them, and the message of the error if the
    trace cannot record the event. -/
structure Arrival where
  event : Except ProviderError StreamEvent
  failure : Option String

/-- What `raw` does with an event. -/
def note (raw : SortedMap Nat (String × String)) :
    StreamEvent → SortedMap Nat (String × String)
  | .blockStart index (.toolUse id _) => raw.insert index (id, "")
  | .toolInputDelta index partialJson => raw.modify index fun x => (x.1, x.2 ++ partialJson)
  | _ => raw

section Stream

variable (fromStr : String → Option Json)

/-- The loop of `stream`, and whether a part of the answer was shown. -/
def drain (acc : Accumulator) (raw : SortedMap Nat (String × String)) (isPartial : Bool) :
    List Arrival → Bool × Except ProviderError (Accumulator × SortedMap Nat (String × String))
  | [] => (isPartial, .ok (acc, raw))
  | arrival :: rest =>
    match arrival.event with
    | .error error => (isPartial, .error error)
    | .ok event =>
      let raw := note raw event
      let isPartial := isPartial || event.isDelta
      match if event.isDelta then arrival.failure else none with
      | some message => (isPartial, .error (.other message))
      | none =>
        match acc.push fromStr event with
        | .error error => (isPartial, .error error)
        | .ok acc => drain acc raw isPartial rest

/-- `Runtime::stream`. The provider's `stream` may fail before any event. -/
def stream (started : Except ProviderError (List Arrival)) (isPartial : Bool) :
    Bool × Except ProviderError (CompleteResponse × SortedMap String String) :=
  match started with
  | .error error => (isPartial, .error error)
  | .ok arrivals =>
    match drain fromStr .new .empty isPartial arrivals with
    | (isPartial, .error error) => (isPartial, .error error)
    | (isPartial, .ok (acc, raw)) =>
      let invalid := SortedMap.ofList (acc.invalidToolInputs.filterMap raw.get?)
      match acc.finish with
      | .error error => (isPartial, .error error)
      | .ok response => (isPartial, .ok (response, invalid))

end Stream

/-! ### The two folds of the loop -/

/-- The events among the arrivals. -/
def eventsOf (arrivals : List Arrival) : List StreamEvent :=
  arrivals.filterMap fun arrival => arrival.event.toOption

/-- An event that the trace records if it has to. -/
def Arrival.Passes (arrival : Arrival) : Prop :=
  ∃ event, arrival.event = .ok event ∧ (event.isDelta = true → arrival.failure = none)

variable {fromStr : String → Option Json}

/-- The loop ends well where every event passes and is accepted. Then each of the
    two has seen all events, whatever the other one holds. -/
theorem drain_iff {acc acc' : Accumulator} {raw raw' : SortedMap Nat (String × String)}
    {isPartial : Bool} {arrivals : List Arrival} :
    (drain fromStr acc raw isPartial arrivals).2 = .ok (acc', raw') ↔
      (∀ arrival ∈ arrivals, arrival.Passes) ∧
      (eventsOf arrivals).foldlM (Accumulator.push fromStr) acc = .ok acc' ∧
      (eventsOf arrivals).foldl note raw = raw' := by
  induction arrivals generalizing acc raw isPartial with
  | nil =>
    show Except.ok (acc, raw) = Except.ok (acc', raw') ↔
      _ ∧ Except.ok acc = Except.ok acc' ∧ raw = raw'
    rw [Except.ok.injEq, Prod.mk.injEq, Except.ok.injEq]
    exact ⟨fun h => ⟨fun _ hmem => absurd hmem List.not_mem_nil, h⟩, And.right⟩
  | cons arrival rest ih =>
    obtain ⟨event, failure⟩ := arrival
    rw [List.forall_mem_cons]
    cases event with
    | error error =>
      constructor
      · intro h
        cases h
      · rintro ⟨⟨⟨event, hevent, -⟩, -⟩, -⟩
        cases hevent
    | ok event =>
      have hevents : eventsOf (⟨.ok event, failure⟩ :: rest) = event :: eventsOf rest := rfl
      rw [hevents, List.foldlM_cons, List.foldl_cons]
      unfold drain
      dsimp only
      cases hfailure : if event.isDelta = true then failure else none with
      | some message =>
        constructor
        · intro h
          cases h
        · rintro ⟨⟨⟨event', hevent, hpasses⟩, -⟩, -⟩
          obtain rfl := Except.ok.inj hevent
          -- Only the record of a delta can fail.
          split_ifs at hfailure with hdelta
          have hnone : failure = none := hpasses hdelta
          rw [hnone] at hfailure
          cases hfailure
      | none =>
        have hpasses : Arrival.Passes ⟨.ok event, failure⟩ := by
          refine ⟨event, rfl, fun hdelta => ?_⟩
          rw [if_pos hdelta] at hfailure
          exact hfailure
        cases hpush : acc.push fromStr event with
        | error error =>
          constructor
          · intro h
            cases h
          · rintro ⟨-, hfold, -⟩
            cases hfold
        | ok next =>
          dsimp only
          rw [ih]
          exact ⟨fun h => ⟨⟨hpasses, h.1⟩, h.2⟩, fun h => ⟨h.1.2, h.2⟩⟩

/-! ### The map beside the accumulator -/

/-- The entry that the events make for an index. -/
def rawOf (events : List StreamEvent) (index : Nat) : Option (String × String) :=
  match (starts events).lookup index with
  | some (.toolUse id _) => some (id, argumentsOf events index)
  | _ => none

theorem note_other {event : StreamEvent} {index : Nat} (h : event.index? ≠ some index)
    (raw : SortedMap Nat (String × String)) :
    (note raw event).get? index = raw.get? index := by
  cases event with
  | blockStart i block =>
    have hne : index ≠ i := fun heq => h (congrArg some heq.symm)
    cases block with
    | toolUse id name =>
      unfold note
      rw [SortedMap.get?_insert, if_neg hne]
    | _ => rfl
  | toolInputDelta i partialJson =>
    have hne : index ≠ i := fun heq => h (congrArg some heq.symm)
    unfold note
    rw [SortedMap.get?_modify, if_neg hne]
  | _ => rfl

theorem rawOf_other {event : StreamEvent} {index : Nat} (h : event.index? ≠ some index)
    (events : List StreamEvent) : rawOf (events ++ [event]) index = rawOf events index := by
  unfold rawOf argumentsOf
  rw [lookup_other h, partsOf_other index_inputPart h]

/-- An event that neither starts a block nor brings input leaves the entries. -/
theorem rawOf_quiet {event : StreamEvent} (hstarts : event.starts = none)
    (hinput : event.inputPart = none) (events : List StreamEvent) (index : Nat) :
    rawOf (events ++ [event]) index = rawOf events index := by
  unfold rawOf
  rw [starts_concat, hstarts, Option.toList_none, List.append_nil, argumentsOf_none hinput]

/-- A block that starts has no entry before, and no input yet. -/
theorem rawOf_start {events : List StreamEvent} (haccepted : Accepted events) {index : Nat}
    (hfresh : index ∉ (starts events).map Prod.fst) (block : BlockStart) :
    rawOf events index = none ∧
    rawOf (events ++ [.blockStart index block]) index =
      match block with
      | .toolUse id _ => some (id, "")
      | _ => none := by
  have hnone : (starts events).lookup index = none := by
    rw [← Option.not_isSome_iff_eq_none, lookup_isSome_iff]
    exact hfresh
  have hstart : (starts (events ++ [.blockStart index block])).lookup index = some block := by
    rw [starts_concat, List.lookup_append, hnone]
    show ([(index, block)] : List (Nat × BlockStart)).lookup index = some block
    rw [SortedMap.lookup_cons_ite, if_pos rfl]
  have hinput : argumentsOf (events ++ [.blockStart index block]) index = "" := by
    rw [argumentsOf_none rfl]
    exact congrArg String.join (partsOf_eq_nil index_inputPart (haccepted.index_ne hfresh))
  unfold rawOf
  rw [hnone, hstart, hinput]
  cases block <;> exact ⟨rfl, rfl⟩

/-- Input is appended to the entry of its block. -/
theorem rawOf_input (events : List StreamEvent) (index : Nat) (partialJson : String) :
    rawOf (events ++ [.toolInputDelta index partialJson]) index =
      (rawOf events index).map fun x => (x.1, x.2 ++ partialJson) := by
  have hinput : argumentsOf (events ++ [.toolInputDelta index partialJson]) index =
      argumentsOf events index ++ partialJson := join_partsOf rfl events
  have hstarts : starts (events ++ [.toolInputDelta index partialJson]) = starts events := by
    rw [starts_concat]
    exact List.append_nil _
  unfold rawOf
  rw [hstarts, hinput]
  cases (starts events).lookup index with
  | none => rfl
  | some block => cases block <;> rfl

/-- The map holds the input of every tool use after each accepted event. -/
theorem note_rawOf {events : List StreamEvent} (haccepted : Accepted events) (index : Nat) :
    (events.foldl note .empty).get? index = rawOf events index := by
  induction events using List.reverseRecOn with
  | nil => rfl
  | append_singleton events event ih =>
    obtain ⟨hevents, hadm⟩ := accepted_concat.mp haccepted
    have hold := ih hevents
    rw [List.foldl_append, List.foldl_cons, List.foldl_nil]
    by_cases hindex : event.index? = some index
    · cases event with
      | blockStart i block =>
        obtain rfl : i = index := Option.some.inj hindex
        obtain ⟨hnone, hstart⟩ := rawOf_start hevents (hadm.fresh i block rfl) block
        rw [hnone] at hold
        rw [hstart]
        cases block with
        | toolUse id name =>
          unfold note
          rw [SortedMap.get?_insert, if_pos rfl]
        | _ => exact hold
      | toolInputDelta i partialJson =>
        obtain rfl : i = index := Option.some.inj hindex
        rw [rawOf_input, ← hold]
        unfold note
        rw [SortedMap.get?_modify, if_pos rfl]
      | _ =>
        rw [rawOf_quiet rfl rfl]
        exact hold
    · rw [note_other hindex, rawOf_other hindex]
      exact hold

/-! ### Distinct ids -/

/-- The id of a tool use that starts. -/
def toolId : BlockStart → Option String
  | .toolUse id _ => some id
  | _ => none

/-- The ids of the tool uses of a stream, in order. -/
def toolIds (events : List StreamEvent) : List String :=
  (starts events).filterMap fun x => toolId x.2

/-- If the ids are distinct, an id belongs to one tool use. -/
theorem eq_of_toolId {events : List StreamEvent} (hids : (toolIds events).Nodup)
    {x y : Nat × BlockStart} (hx : x ∈ starts events) (hy : y ∈ starts events) {id : String}
    (hxid : toolId x.2 = some id) (hyid : toolId y.2 = some id) : x = y := by
  by_contra hne
  have hpairs := List.pairwise_filterMap.mp hids
  have hsymm : Std.Symm fun a b : Nat × BlockStart =>
      ∀ i, toolId a.2 = some i → ∀ j, toolId b.2 = some j → i ≠ j := by
    refine ⟨fun a b hab i hi j hj heq => ?_⟩
    exact hab j hj i hi heq.symm
  exact hpairs.forall hx hy hne id hxid id hyid rfl

theorem rawOf_eq_some_iff {events : List StreamEvent} (haccepted : Accepted events) {index : Nat}
    {id raw : String} :
    rawOf events index = some (id, raw) ↔
      ∃ name, (index, .toolUse id name) ∈ starts events ∧ argumentsOf events index = raw := by
  simp only [← Objects.lookup_eq_some_iff haccepted.startedOnce]
  unfold rawOf
  cases (starts events).lookup index with
  | none => simp
  | some block => cases block <;> simp

theorem Accepted.stoppedOnce {events : List StreamEvent} (h : Accepted events) :
    (stops events).Nodup := by
  induction events using List.reverseRecOn with
  | nil => exact List.nodup_nil
  | append_singleton events event ih =>
    obtain ⟨hevents, hadm⟩ := accepted_concat.mp h
    rw [stops_concat]
    cases hstops : event.stops with
    | none =>
      rw [Option.toList_none, List.append_nil]
      exact ih hevents
    | some index =>
      have hrefers : event.refersTo = some index := by
        cases event <;> first | exact hstops | cases hstops
      obtain ⟨-, -, hopen, -⟩ := hadm.refers index hrefers
      rw [Option.toList_some]
      apply List.nodup_append_comm.mp
      exact List.nodup_cons.mpr ⟨hopen, ih hevents⟩

/-- The content of a response, block by block. -/
theorem mem_contents_iff {events : List StreamEvent} (haccepted : Accepted events)
    {content : ContentBlock} :
    content ∈ contents fromStr events ↔
      ∃ index block, (index, block) ∈ starts events ∧
        contentOf fromStr events index block = content := by
  unfold contents
  simp only [List.mem_filterMap, List.mem_insertionSort, Option.map_eq_some_iff,
    Objects.lookup_eq_some_iff haccepted.startedOnce]
  constructor
  · intro h
    obtain ⟨index, -, block, hmem, hcontent⟩ := h
    exact ⟨index, block, hmem, hcontent⟩
  · intro h
    obtain ⟨index, block, hmem, hcontent⟩ := h
    exact ⟨index, List.mem_map_of_mem hmem, block, hmem, hcontent⟩

/-! ### The result of `stream` -/

theorem accumulate_eq_ok {events : List StreamEvent} {response : CompleteResponse}
    {failed : List Nat} :
    accumulate fromStr events = .ok (response, failed) ↔
      ∃ acc, events.foldlM (Accumulator.push fromStr) .new = .ok acc ∧
        acc.finish = .ok response ∧ acc.invalidToolInputs = failed := by
  unfold accumulate
  cases hfold : events.foldlM (Accumulator.push fromStr) .new with
  | error error =>
    constructor
    · intro h
      cases h
    · rintro ⟨_, h, -⟩
      cases h
  | ok acc =>
    show (acc.finish.bind fun response => .ok (response, acc.invalidToolInputs)) = _ ↔ _
    cases hfinish : acc.finish with
    | error error =>
      constructor
      · intro h
        cases h
      · rintro ⟨acc', hacc, h, -⟩
        obtain rfl := Except.ok.inj hacc
        rw [hfinish] at h
        cases h
    | ok response' =>
      constructor
      · intro h
        obtain ⟨rfl, rfl⟩ := Prod.mk.inj (Except.ok.inj h)
        exact ⟨acc, rfl, hfinish, rfl⟩
      · rintro ⟨acc', hacc, h, rfl⟩
        obtain rfl := Except.ok.inj hacc
        obtain rfl := Except.ok.inj (hfinish.symm.trans h)
        rfl

theorem accepted_of_accumulate {events : List StreamEvent}
    {result : CompleteResponse × List Nat} (h : accumulate fromStr events = .ok result) :
    Accepted events :=
  (wellFormed_iff.mp ((accumulate_iff fromStr events).1.mp ⟨result, h⟩)).1

/-- `stream` succeeds where every event passes and they add up to a response. It
    returns that response and the entries of the indices that did not parse. -/
theorem stream_iff {arrivals : List Arrival} {isPartial : Bool} {response : CompleteResponse}
    {invalid : SortedMap String String} :
    (stream fromStr (.ok arrivals) isPartial).2 = .ok (response, invalid) ↔
      (∀ arrival ∈ arrivals, arrival.Passes) ∧
      ∃ failed, accumulate fromStr (eventsOf arrivals) = .ok (response, failed) ∧
        SortedMap.ofList (failed.filterMap (rawOf (eventsOf arrivals))) = invalid := by
  unfold stream
  dsimp only
  cases hdrain : drain fromStr .new .empty isPartial arrivals with
  | mk isPartial' result =>
    have hresult := congrArg Prod.snd hdrain
    cases result with
    | error error =>
      constructor
      · intro h
        cases h
      · rintro ⟨hpasses, failed, haccumulate, -⟩
        obtain ⟨acc, hfold, -, -⟩ := accumulate_eq_ok.mp haccumulate
        have hok := (@drain_iff fromStr .new acc .empty _ isPartial arrivals).mpr
          ⟨hpasses, hfold, rfl⟩
        cases hok.symm.trans hresult
    | ok result =>
      obtain ⟨acc, raw⟩ := result
      obtain ⟨hpasses, hfold, rfl⟩ := drain_iff.mp hresult
      -- Once the events add up, the map holds the entries that they make.
      have hraw : ∀ result, accumulate fromStr (eventsOf arrivals) = .ok result →
          ((eventsOf arrivals).foldl note .empty).get? = rawOf (eventsOf arrivals) :=
        fun result haccumulate => funext (note_rawOf (accepted_of_accumulate haccumulate))
      dsimp only
      cases hfinish : acc.finish with
      | error error =>
        constructor
        · intro h
          cases h
        · rintro ⟨-, failed, haccumulate, -⟩
          obtain ⟨acc', hfold', hfinish', -⟩ := accumulate_eq_ok.mp haccumulate
          obtain rfl := Except.ok.inj (hfold.symm.trans hfold')
          cases hfinish.symm.trans hfinish'
      | ok response' =>
        constructor
        · intro h
          obtain ⟨rfl, rfl⟩ := Prod.mk.inj (Except.ok.inj h)
          have haccumulate := accumulate_eq_ok.mpr ⟨acc, hfold, hfinish, rfl⟩
          exact ⟨hpasses, _, haccumulate, by rw [hraw _ haccumulate]⟩
        · rintro ⟨-, failed, haccumulate, rfl⟩
          obtain ⟨acc', hfold', hfinish', rfl⟩ := accumulate_eq_ok.mp haccumulate
          obtain rfl := Except.ok.inj (hfold.symm.trans hfold')
          obtain rfl := Except.ok.inj (hfinish.symm.trans hfinish')
          dsimp only
          rw [hraw _ haccumulate]

/-! ### The entries -/

section

variable {events : List StreamEvent} {failed : List Nat}

/-- A tool use that is reported, and the text that stands for its input. -/
theorem invalidInput_iff {index : Nat} (haccepted : Accepted events) :
    invalidInput fromStr events index = true ↔
      ∃ id name, (index, .toolUse id name) ∈ starts events ∧
        argumentsOf events index ≠ "" ∧ fromStr (argumentsOf events index) = none := by
  simp only [← Objects.lookup_eq_some_iff haccepted.startedOnce]
  unfold invalidInput
  cases (starts events).lookup index with
  | none => simp
  | some block => cases block <;> simp

/-- An id is in one entry. -/
theorem rawOf_keys_nodup (haccepted : Accepted events) (hids : (toolIds events).Nodup)
    (hfailed : failed.Nodup) : ((failed.filterMap (rawOf events)).map Prod.fst).Nodup := by
  rw [List.map_filterMap]
  apply List.Nodup.filterMap _ hfailed
  intro i j id hi hj
  obtain ⟨⟨_, raw⟩, hentry, rfl⟩ := Option.map_eq_some_iff.mp hi
  obtain ⟨⟨_, raw'⟩, hentry', rfl⟩ := Option.map_eq_some_iff.mp hj
  obtain ⟨name, hstart, -⟩ := (rawOf_eq_some_iff haccepted).mp hentry
  obtain ⟨name', hstart', -⟩ := (rawOf_eq_some_iff haccepted).mp hentry'
  exact congrArg Prod.fst (eq_of_toolId hids hstart hstart' rfl rfl)

/-- An entry of the map of the indices that did not parse. -/
theorem get?_raw_iff (haccepted : Accepted events) (hids : (toolIds events).Nodup)
    (hfailed : failed.Nodup) {id raw : String} :
    (SortedMap.ofList (failed.filterMap (rawOf events))).get? id = some raw ↔
      ∃ index ∈ failed, ∃ name, (index, .toolUse id name) ∈ starts events ∧
        argumentsOf events index = raw := by
  rw [SortedMap.get?_ofList_iff (rawOf_keys_nodup haccepted hids hfailed), List.mem_filterMap]
  simp only [rawOf_eq_some_iff haccepted]

/-- A tool use of the response, found by its id. -/
theorem toolUse_mem_iff (haccepted : Accepted events) (hids : (toolIds events).Nodup)
    {index : Nat} {id name name' : String} {input : Json}
    (hmem : (index, .toolUse id name) ∈ starts events) :
    .toolUse id name' input ∈ contents fromStr events ↔
      name' = name ∧ input = inputOf fromStr (argumentsOf events index) := by
  rw [mem_contents_iff haccepted]
  constructor
  · intro h
    obtain ⟨i, block, hblock, hcontent⟩ := h
    cases block with
    | toolUse id' n =>
      obtain ⟨rfl, rfl, rfl⟩ := ContentBlock.toolUse.inj hcontent
      obtain ⟨rfl, hsame⟩ := Prod.mk.inj (eq_of_toolId hids hblock hmem rfl rfl)
      exact ⟨(BlockStart.toolUse.inj hsame).2, rfl⟩
    | _ => cases hcontent
  · rintro ⟨rfl, rfl⟩
    exact ⟨index, _, hmem, rfl⟩

end

/-- If the ids of an accepted stream are distinct, the map that `stream` returns
    beside the response has exactly one entry for each tool use whose arguments
    did not parse, with all of its input deltas, and the response has the same
    text as the input of that tool use. A tool use that parsed has no entry. -/
theorem stream_raw (fromStr : String → Option Json) {arrivals : List Arrival}
    {events : List StreamEvent} {isPartial shown : Bool} {response : CompleteResponse}
    {invalid : SortedMap String String} (hevents : eventsOf arrivals = events)
    (hstream : stream fromStr (.ok arrivals) isPartial = (shown, .ok (response, invalid)))
    (hids : (toolIds events).Nodup) :
    ∃ failed, accumulate fromStr events = .ok (response, failed) ∧
      failed.Nodup ∧ invalid.entries.length = failed.length ∧
      (∀ index, index ∈ failed ↔ ∃ id name, (index, .toolUse id name) ∈ starts events ∧
        argumentsOf events index ≠ "" ∧ fromStr (argumentsOf events index) = none) ∧
      (∀ id raw, invalid.get? id = some raw ↔
        ∃ index ∈ failed, ∃ name, (index, .toolUse id name) ∈ starts events ∧
          argumentsOf events index = raw) ∧
      ∀ index id name, (index, .toolUse id name) ∈ starts events →
        (index ∈ failed →
          invalid.get? id = some (argumentsOf events index) ∧
          ∀ name' input, .toolUse id name' input ∈ response.content ↔
            name' = name ∧ input = .string (argumentsOf events index)) ∧
        (index ∉ failed → invalid.get? id = none) := by
  subst hevents
  obtain ⟨-, failed, haccumulate, rfl⟩ := stream_iff.mp (congrArg Prod.snd hstream)
  have haccepted := accepted_of_accumulate haccumulate
  obtain ⟨hwell, hresult, -⟩ := accumulate_iff fromStr (eventsOf arrivals)
  obtain ⟨hcontent, hmem⟩ := hresult response failed haccumulate
  obtain ⟨id, model, stopReason, -, -, hwhole⟩ :=
    @accumulate_wellFormed fromStr _ (hwell.mp ⟨_, haccumulate⟩)
  have hfailed : failed.Nodup := by
    rw [(Prod.mk.inj (Except.ok.inj (haccumulate.symm.trans hwhole))).2]
    exact haccepted.stoppedOnce.filter _
  have hiff : ∀ index, index ∈ failed ↔ _ :=
    fun index => (hmem index).trans (invalidInput_iff haccepted)
  refine ⟨failed, haccumulate, hfailed, ?_, hiff,
    fun id raw => get?_raw_iff haccepted hids hfailed, ?_⟩
  · have hperm := SortedMap.entries_ofList_perm_iff.mpr (rawOf_keys_nodup haccepted hids hfailed)
    rw [hperm.length_eq, List.filterMap_length_eq_length]
    intro index hindex
    obtain ⟨id, name, hstart, -⟩ := (hiff index).mp hindex
    rw [(rawOf_eq_some_iff haccepted).mpr ⟨name, hstart, rfl⟩]
    rfl
  · intro index id name hstart
    constructor
    · intro hindex
      refine ⟨(get?_raw_iff haccepted hids hfailed).mpr ⟨index, hindex, name, hstart, rfl⟩, ?_⟩
      intro name' input
      obtain ⟨-, -, -, hne, hparse⟩ := (hiff index).mp hindex
      have hinput : inputOf fromStr (argumentsOf (eventsOf arrivals) index) =
          .string (argumentsOf (eventsOf arrivals) index) := by
        unfold inputOf
        rw [if_neg hne, hparse]
        rfl
      rw [hcontent, toolUse_mem_iff haccepted hids hstart, hinput]
    · intro hindex
      apply Option.eq_none_iff_forall_ne_some.mpr
      intro raw hraw
      -- The entry would be that of another block with the same id.
      obtain ⟨i, hi, n, hn, -⟩ := (get?_raw_iff haccepted hids hfailed).mp hraw
      obtain rfl := congrArg Prod.fst (eq_of_toolId hids hn hstart rfl rfl)
      exact hindex hi

/-- Two tool uses whose deltas alternate; the one that starts first breaks off. -/
def alternating : List Arrival :=
  [.messageStart none "m" 0, .blockStart 1 (.toolUse "a" "ls"), .blockStart 0 (.toolUse "b" "cat"),
    .toolInputDelta 1 "[", .toolInputDelta 0 "[]", .toolInputDelta 1 "1", .blockStop 0,
    .blockStop 1, .messageDelta (some .toolUse) 0, .messageStop].map fun event => ⟨.ok event, none⟩

/-- A parser as far as the two inputs go. -/
def parseArray (text : String) : Option Json := if text = "[]" then some (.array []) else none

theorem stream_raw_alternating :
    ∃ shown response invalid,
      stream parseArray (.ok alternating) false = (shown, .ok (response, invalid)) ∧
      invalid.entries.length = 1 ∧ invalid.get? "a" = some "[1" ∧ invalid.get? "b" = none ∧
      .toolUse "a" "ls" (.string "[1") ∈ response.content := by
  have hok : (stream parseArray (.ok alternating) false).2.isOk = true := by decide +kernel
  cases hstream : stream parseArray (.ok alternating) false with
  | mk shown result =>
    rw [hstream] at hok
    cases result with
    | error error => cases hok
    | ok result =>
      obtain ⟨response, invalid⟩ := result
      obtain ⟨failed, -, hnodup, hlength, hfailed, -, hstarts⟩ :=
        stream_raw parseArray rfl hstream (by decide)
      have hblocks : starts (eventsOf alternating) =
          [(1, .toolUse "a" "ls"), (0, .toolUse "b" "cat")] := rfl
      have hinput : argumentsOf (eventsOf alternating) 1 = "[1" := by decide
      have hone : failed = [1] := by
        apply List.perm_singleton.mp
        apply (List.perm_ext_iff_of_nodup hnodup (List.nodup_singleton 1)).mpr
        intro index
        rw [hfailed, hblocks, List.mem_singleton]
        constructor
        · rintro ⟨id, name, hmem, -, hparse⟩
          rcases List.mem_cons.mp hmem with heq | hmem
          · exact congrArg Prod.fst heq
          · obtain rfl : index = 0 := congrArg Prod.fst (List.mem_singleton.mp hmem)
            revert hparse
            decide
        · rintro rfl
          exact ⟨"a", "ls", List.mem_cons_self, by decide, by decide⟩
      obtain ⟨hbroken, -⟩ := hstarts 1 "a" "ls" List.mem_cons_self
      obtain ⟨-, hparsed⟩ := hstarts 0 "b" "cat" (List.mem_cons_of_mem _ List.mem_cons_self)
      obtain ⟨hentry, hcontent⟩ := hbroken (hone ▸ List.mem_singleton_self 1)
      rw [hinput] at hentry hcontent
      refine ⟨shown, response, invalid, rfl, ?_, hentry, ?_, (hcontent _ _).mpr ⟨rfl, rfl⟩⟩
      · rw [hlength, hone]
        rfl
      · apply hparsed
        rw [hone]
        decide

end Accumulation

end Kyora
