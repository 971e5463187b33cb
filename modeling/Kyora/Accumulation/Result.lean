import Kyora.Accumulation.Steps
import Mathlib.Data.List.Sort

/-! # The response of a stream

  The events add up to a response exactly where they are well formed, and what
  they say of a block and of the message decides it. So deltas may be cut
  anywhere, and the events of different blocks may come in any order.
-/

namespace Kyora.Accumulation

variable {fromStr : String → Option Json}

/-! ### Success -/

/-- The only message stop that can be accepted is the last event. -/
theorem Accepted.any_isMessageStop {events : List StreamEvent} (h : Accepted events) :
    events.any StreamEvent.isMessageStop = true ↔
      ∃ last, events.getLast? = some last ∧ last.isMessageStop = true := by
  rw [List.any_eq_true]
  constructor
  · intro hany
    obtain ⟨event, hmem, hstop⟩ := hany
    obtain ⟨before, after, rfl⟩ := List.append_of_mem hmem
    rcases List.eq_nil_or_concat after with rfl | ⟨after, last, rfl⟩
    · exact ⟨event, by simp, hstop⟩
    · have hadm := h (before ++ event :: after) last [] (by simp)
      rw [hadm.running event (by simp)] at hstop
      cases hstop
  · intro hlast
    obtain ⟨last, hlast, hstop⟩ := hlast
    exact ⟨last, List.mem_of_getLast? hlast, hstop⟩

theorem started_perm {m : SortedMap Nat PendingBlock} {events : List StreamEvent}
    (haccepted : Accepted events)
    (h : ∀ index, m.get? index =
      ((starts events).lookup index).map (pendingOf fromStr events index)) :
    m.keys = ((starts events).map Prod.fst).insertionSort (· ≤ ·) := by
  have hperm : m.keys.Perm (((starts events).map Prod.fst).insertionSort (· ≤ ·)) := by
    refine List.Perm.trans ?_ (List.perm_insertionSort _ _).symm
    apply (List.perm_ext_iff_of_nodup m.keys_nodup haccepted.startedOnce).mpr
    intro index
    show index ∈ m.keys ↔ _
    rw [SortedMap.mem_keys_iff, ← lookup_isSome_iff, ← Option.isSome_iff_exists, h]
    cases (starts events).lookup index <;> simp
  apply List.Perm.eq_of_pairwise _ (m.keys_sorted.imp Nat.le_of_lt)
    (List.pairwise_insertionSort _ _) hperm
  exact fun a b _ _ hab hba => Nat.le_antisymm hab hba

/-- The blocks of a complete stream, by increasing index. -/
theorem Holds.contents {acc : Accumulator} {events : List StreamEvent}
    (h : Holds fromStr acc events) (haccepted : Accepted events)
    (hstopped : ∀ index ∈ (starts events).map Prod.fst, index ∈ stops events) :
    acc.blocks.values.map PendingBlock.content = contents fromStr events := by
  unfold Accumulation.contents
  rw [SortedMap.values_eq, started_perm haccepted h.blocks, List.map_filterMap]
  apply List.filterMap_congr
  intro index hmem
  have hin := hstopped index (List.mem_insertionSort _ |>.mp hmem)
  rw [h.blocks, Option.map_map]
  congr 1
  funext block
  -- A block that has stopped has its input.
  cases block with
  | text => rfl
  | thinking => rfl
  | toolUse id name =>
    show (pendingOf fromStr events index (.toolUse id name)).content = _
    rw [pendingOf_toolUse, if_pos hin]
    rfl
  | opaqueBlock provider kind raw => rfl

/-- What a well-formed stream comes to. -/
theorem accumulate_wellFormed {events : List StreamEvent} (h : WellFormed events) :
    ∃ id model stopReason, (summaryOf events).header = some (id, model) ∧
      (summaryOf events).stopReason = some stopReason ∧
      accumulate fromStr events = .ok
        ({ id, model, content := contents fromStr events, stopReason,
           usage := (summaryOf events).usage,
           usageIterations := (summaryOf events).usageIterations },
          (stops events).filter (invalidInput fromStr events)) := by
  obtain ⟨haccepted, hlast, hreason⟩ := wellFormed_iff.mp h
  rcases @pushAll fromStr events with ⟨-, acc, hfold, hholds⟩ | ⟨hno, -⟩
  · have hstopped : acc.stopped = true := by
      rw [hholds.stopped, haccepted.any_isMessageStop]
      exact hlast
    have hheader : acc.header.isSome = true := by
      rw [hholds.header]
      obtain ⟨first, rest, rfl, hfirst, -⟩ := h.start
      rw [List.any_cons, hfirst]
      rfl
    have hstopReason : (summaryOf events).stopReason.isSome = true := by
      rw [summaryOf_stopReason, List.any_eq_true]
      exact hreason
    obtain ⟨⟨id, model⟩, hheader⟩ := Option.isSome_iff_exists.mp hheader
    obtain ⟨stopReason, hstopReason⟩ := Option.isSome_iff_exists.mp hstopReason
    have hsame : acc.header = (summaryOf events).header := congrArg Summary.header hholds.summary
    have hreasons : acc.stopReason = some stopReason :=
      (congrArg Summary.stopReason hholds.summary).trans hstopReason
    have husage : acc.usage = (summaryOf events).usage := congrArg Summary.usage hholds.summary
    have hiterations : acc.usageIterations = (summaryOf events).usageIterations :=
      congrArg Summary.usageIterations hholds.summary
    refine ⟨id, model, stopReason, hsame.symm.trans hheader, hstopReason, ?_⟩
    have hfinish : acc.finish = .ok
        { id, model, content := contents fromStr events, stopReason,
          usage := (summaryOf events).usage,
          usageIterations := (summaryOf events).usageIterations } := by
      unfold Accumulator.finish
      rw [hstopped, hheader, hreasons, husage, hiterations, hholds.contents haccepted h.stopped]
      rfl
    unfold accumulate
    rw [hfold]
    show (acc.finish.bind fun response => .ok (response, acc.invalidToolInputs)) = _
    rw [hfinish, hholds.invalid]
    rfl
  · exact absurd haccepted hno

/-- A stream that is not well formed is refused. -/
theorem accumulate_error {events : List StreamEvent} (h : ¬ WellFormed events) :
    ∃ error, accumulate fromStr events = .error error := by
  unfold accumulate
  rcases @pushAll fromStr events with ⟨haccepted, acc, hfold, hholds⟩ | ⟨-, e, hfold⟩
  · rw [hfold]
    show ∃ error, (acc.finish.bind fun response => .ok (response, acc.invalidToolInputs)) = _
    have hfinish : ∃ error, acc.finish = .error error := by
      unfold Accumulator.finish
      cases hstopped : acc.stopped with
      | false => exact ⟨_, rfl⟩
      | true =>
        cases hheader : acc.header with
        | none => exact ⟨_, rfl⟩
        | some header =>
          cases hreason : acc.stopReason with
          | none => exact ⟨_, rfl⟩
          | some reason =>
            -- Then nothing is missing.
            rw [hholds.stopped, haccepted.any_isMessageStop] at hstopped
            have hsome : (summaryOf events).stopReason.isSome = true := by
              rw [← hholds.summary]
              exact congrArg Option.isSome hreason
            rw [summaryOf_stopReason, List.any_eq_true] at hsome
            exact absurd (wellFormed_iff.mpr ⟨haccepted, hstopped, hsome⟩) h
    obtain ⟨error, herror⟩ := hfinish
    exact ⟨error, by rw [herror]; rfl⟩
  · exact ⟨e, by rw [hfold]; rfl⟩

/-! ### Deltas cut in two -/

/-- A delta and the two deltas that it can be cut into. -/
inductive Splits : StreamEvent → StreamEvent → StreamEvent → Prop
  | text (index : Nat) (s t : String) :
    Splits (.textDelta index (s ++ t)) (.textDelta index s) (.textDelta index t)
  | thinking (index : Nat) (s t : String) :
    Splits (.thinkingDelta index (s ++ t)) (.thinkingDelta index s) (.thinkingDelta index t)
  | signature (index : Nat) (s t : String) :
    Splits (.signatureDelta index (s ++ t)) (.signatureDelta index s) (.signatureDelta index t)
  | input (index : Nat) (s t : String) :
    Splits (.toolInputDelta index (s ++ t)) (.toolInputDelta index s) (.toolInputDelta index t)

/-- On one block the two deltas do what the whole one does. -/
theorem Splits.touch {whole first second : StreamEvent} (h : Splits whole first second)
    (b : PendingBlock) :
    (touch fromStr whole b = none ∧ touch fromStr first b = none ∧
      refusal whole = refusal first) ∨
    ∃ b₁ b₂, touch fromStr whole b = some (b₂, false) ∧ touch fromStr first b = some (b₁, false) ∧
      b₁.closed = b.closed ∧ touch fromStr second b₁ = some (b₂, false) := by
  obtain ⟨content, partialJson, closed⟩ := b
  cases h with
  | text index s t =>
    cases content with
    | text existing =>
      refine .inr ⟨_, _, rfl, rfl, rfl, ?_⟩
      show some (PendingBlock.mk (.text ((existing ++ s) ++ t)) _ _, false) = _
      rw [String.append_assoc]
    | _ => exact .inl ⟨rfl, rfl, rfl⟩
  | thinking index s t =>
    cases content with
    | thinking existing signature =>
      refine .inr ⟨_, _, rfl, rfl, rfl, ?_⟩
      show some (PendingBlock.mk (.thinking ((existing ++ s) ++ t) _) _ _, false) = _
      rw [String.append_assoc]
    | _ => exact .inl ⟨rfl, rfl, rfl⟩
  | signature index s t =>
    cases content with
    | thinking thinking existing =>
      refine .inr ⟨_, _, rfl, rfl, rfl, ?_⟩
      show some (PendingBlock.mk (.thinking _ (some ((existing.getD "" ++ s) ++ t))) _ _, false) = _
      rw [String.append_assoc]
    | _ => exact .inl ⟨rfl, rfl, rfl⟩
  | input index s t =>
    cases content with
    | toolUse id name input =>
      refine .inr ⟨_, _, rfl, rfl, rfl, ?_⟩
      show some (PendingBlock.mk _ ((partialJson ++ s) ++ t) _, false) = _
      rw [String.append_assoc]
    | _ => exact .inl ⟨rfl, rfl, rfl⟩

theorem openBlock_closed {acc : Accumulator} {index : Nat} {b : PendingBlock}
    (h : acc.openBlock index = .ok b) :
    acc.blocks.get? index = some b ∧ b.closed = false := by
  unfold Accumulator.openBlock at h
  cases hget : acc.blocks.get? index with
  | none =>
    rw [hget] at h
    cases h
  | some b' =>
    rw [hget] at h
    dsimp only at h
    by_cases hclosed : b'.closed = true
    · rw [if_pos hclosed] at h
      cases h
    · rw [if_neg hclosed] at h
      obtain rfl := Except.ok.inj h
      exact ⟨rfl, Bool.eq_false_iff.mpr hclosed⟩

/-- A block that stays open can be opened again. -/
theorem openBlock_touched {acc : Accumulator} {index : Nat} {b : PendingBlock}
    (h : acc.openBlock index = .ok b) {r : PendingBlock × Bool} (hr : r.1.closed = b.closed) :
    (acc.touched index r).openBlock index = .ok r.1 := by
  obtain ⟨hget, hopen⟩ := openBlock_closed h
  have hget' : (acc.touched index r).blocks.get? index = some r.1 := by
    show (acc.blocks.modify index fun _ => r.1).get? index = _
    rw [SortedMap.get?_modify, if_pos rfl, hget]
    rfl
  unfold Accumulator.openBlock
  rw [hget']
  dsimp only
  rw [hr, hopen]
  rfl

theorem touched_touched (acc : Accumulator) (index : Nat) (b₁ b₂ : PendingBlock) :
    (acc.touched index (b₁, false)).touched index (b₂, false) =
      acc.touched index (b₂, false) := by
  show { acc with blocks := (acc.blocks.modify index fun _ => b₁).modify index fun _ => b₂ } =
    { acc with blocks := acc.blocks.modify index fun _ => b₂ }
  rw [SortedMap.modify_modify]
  rfl

/-- The events of the deltas all refer to one block. -/
theorem Splits.refersTo {whole first second : StreamEvent} (h : Splits whole first second) :
    ∃ index, whole.refersTo = some index ∧ first.refersTo = some index ∧
      second.refersTo = some index := by
  cases h <;> exact ⟨_, rfl, rfl, rfl⟩

/-- Past the first event of a message `push` goes on to its match. -/
theorem push_running {acc : Accumulator} (hstopped : acc.stopped = false)
    {header : Option String × String} (hheader : acc.header = some header) (event : StreamEvent) :
    acc.push fromStr event = acc.onEvent fromStr event := by
  unfold Accumulator.push
  rw [hstopped, hheader]
  rfl

theorem push_splits {whole first second : StreamEvent} (h : Splits whole first second)
    (acc : Accumulator) :
    acc.push fromStr whole =
      (acc.push fromStr first).bind fun acc => acc.push fromStr second := by
  cases hstopped : acc.stopped with
  | true =>
    unfold Accumulator.push
    rw [hstopped]
    rfl
  | false =>
    cases hheader : acc.header with
    | none =>
      unfold Accumulator.push
      rw [hstopped, hheader]
      cases h <;> rfl
    | some header =>
      obtain ⟨index, hwhole, hfirst, hsecond⟩ := h.refersTo
      rw [push_running hstopped hheader, push_running hstopped hheader,
        onEvent_touch fromStr acc hwhole, onEvent_touch fromStr acc hfirst]
      cases hopen : acc.openBlock index with
      | error e => rfl
      | ok b =>
        rcases @Splits.touch fromStr _ _ _ h b with
          ⟨hw, hf, hsame⟩ | ⟨b₁, b₂, hw, hf, hclosed, hs⟩
        · show acc.received whole index (touch fromStr whole b) =
            (acc.received first index (touch fromStr first b)).bind _
          rw [hw, hf, Accumulator.received, Accumulator.received, hsame]
          rfl
        · show acc.received whole index (touch fromStr whole b) =
            (acc.received first index (touch fromStr first b)).bind _
          rw [hw, hf]
          show Except.ok (acc.touched index (b₂, false)) =
            (acc.touched index (b₁, false)).push fromStr second
          have hsame : (acc.touched index (b₁, false)).push fromStr second =
              (acc.touched index (b₁, false)).onEvent fromStr second :=
            @push_running fromStr (acc.touched index (b₁, false)) hstopped header hheader second
          rw [hsame, onEvent_touch fromStr _ hsecond, openBlock_touched hopen hclosed]
          show _ = (acc.touched index (b₁, false)).received second index (touch fromStr second b₁)
          rw [hs, Accumulator.received, touched_touched]

/-- A delta may come in one event or in two. -/
theorem accumulate_splits {whole first second : StreamEvent} (h : Splits whole first second)
    (before after : List StreamEvent) :
    accumulate fromStr (before ++ whole :: after) =
      accumulate fromStr (before ++ first :: second :: after) := by
  have hfold : ∀ acc : Accumulator,
      (whole :: after).foldlM (Accumulator.push fromStr) acc =
        (first :: second :: after).foldlM (Accumulator.push fromStr) acc := by
    intro acc
    rw [List.foldlM_cons, List.foldlM_cons, push_splits h]
    cases acc.push fromStr first with
    | error e => rfl
    | ok acc' => rfl
  unfold accumulate
  rw [List.foldlM_append, List.foldlM_append]
  congr 2
  funext acc
  exact hfold acc

end Kyora.Accumulation
