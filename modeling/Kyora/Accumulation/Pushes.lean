import Kyora.Accumulation.Result
import Kyora.Framework.Checks

/-! # What a push does

  The events that `push` takes and what they make of the accumulator, whatever
  came before them.
-/

namespace Kyora.Accumulation

section Takes

variable (fromStr : String → Option Json)

/-- An event that the accumulator takes while it runs. -/
inductive Takes (acc : Accumulator) : StreamEvent → Accumulator → Prop
  | messageStart (id : Option String) (model : String) (usage : Usage)
      (hheader : acc.header = none) :
      Takes acc (.messageStart id model usage)
        { acc with header := some (id, model), usage := usage }
  | blockStart (index : Nat) (block : BlockStart) (hheader : acc.header.isSome)
      (hfresh : acc.blocks.get? index = none) :
      Takes acc (.blockStart index block)
        { acc with blocks := acc.blocks.insert index ⟨startContent block, "", false⟩ }
  | refers {event : StreamEvent} {index : Nat} {b : PendingBlock} {r : PendingBlock × Bool}
      (hheader : acc.header.isSome) (hrefers : event.refersTo = some index)
      (hget : acc.blocks.get? index = some b) (hopen : b.closed = false)
      (htouch : touch fromStr event b = some r) : Takes acc event (acc.touched index r)
  | messageDelta (stopReason : Option StopReason) (usage : Usage) (hheader : acc.header.isSome) :
      Takes acc (.messageDelta stopReason usage)
        { acc with
          stopReason := stopReason.or acc.stopReason
          usage := updateUsage acc.usage usage }
  | usageSnapshot (model : String) (usage : Usage) (iterations : List UsageIteration)
      (hheader : acc.header.isSome) :
      Takes acc (.usageSnapshot model usage iterations)
        { acc with
          header := acc.header.map fun header => (header.1, model)
          usage := usage
          usageIterations := iterations }
  | messageStop (hheader : acc.header.isSome)
      (hclosed : (acc.blocks.values.any fun block => !block.closed) = false) :
      Takes acc .messageStop { acc with stopped := true }

end Takes

variable {fromStr : String → Option Json}

/-- A delta or a stop is taken where its block is open and fits. -/
theorem onEvent_refers {acc acc' : Accumulator} {event : StreamEvent} {index : Nat}
    (hrefers : event.refersTo = some index) :
    acc.onEvent fromStr event = .ok acc' ↔
      ∃ b r, acc.blocks.get? index = some b ∧ b.closed = false ∧ touch fromStr event b = some r ∧
        acc' = acc.touched index r := by
  rw [onEvent_touch fromStr acc hrefers]
  constructor
  · intro h
    obtain ⟨b, hopen, h⟩ := Checks.bind_eq_ok h
    obtain ⟨hget, hclosed⟩ := openBlock_closed hopen
    cases htouch : touch fromStr event b with
    | none =>
      rw [htouch] at h
      cases h
    | some r =>
      rw [htouch] at h
      exact ⟨b, r, hget, hclosed, htouch, (Except.ok.inj h).symm⟩
  · intro h
    obtain ⟨b, r, hget, hclosed, htouch, rfl⟩ := h
    have hopen : acc.openBlock index = .ok b := by
      unfold Accumulator.openBlock
      rw [hget]
      dsimp only
      rw [hclosed]
      rfl
    rw [hopen]
    show acc.received event index (touch fromStr event b) = _
    rw [htouch]
    rfl

theorem takes_refers {acc acc' : Accumulator} {event : StreamEvent} {index : Nat}
    (hheader : acc.header.isSome) (hrefers : event.refersTo = some index) :
    acc.onEvent fromStr event = .ok acc' ↔ Takes fromStr acc event acc' := by
  rw [onEvent_refers hrefers]
  constructor
  · intro h
    obtain ⟨b, r, hget, hopen, htouch, rfl⟩ := h
    exact .refers hheader hrefers hget hopen htouch
  · intro h
    cases h with
    | refers _ hrefers' hget hopen htouch =>
      obtain rfl := Option.some.inj (hrefers'.symm.trans hrefers)
      exact ⟨_, _, hget, hopen, htouch, rfl⟩
    | _ => cases hrefers

/-- An event other than the start of a message is taken by a message that runs. -/
theorem onEvent_eq_ok {acc acc' : Accumulator} {event : StreamEvent}
    (hheader : acc.header.isSome) :
    acc.onEvent fromStr event = .ok acc' ↔ Takes fromStr acc event acc' := by
  cases event with
  | messageStart id model usage =>
    constructor
    · intro h
      have herror : acc.onEvent fromStr (.messageStart id model usage) = .error _ := if_pos hheader
      rw [herror] at h
      cases h
    · intro h
      cases h with
      | messageStart _ _ _ hnone =>
        rw [hnone] at hheader
        cases hheader
      | refers _ hrefers => cases hrefers
  | blockStart index block =>
    constructor
    · intro h
      unfold Accumulator.onEvent at h
      cases hget : acc.blocks.get? index with
      | none =>
        simp only [hget] at h
        obtain rfl := Except.ok.inj h
        exact .blockStart index block hheader hget
      | some b =>
        simp only [hget] at h
        cases h
    · intro h
      cases h with
      | blockStart _ _ _ hfresh =>
        unfold Accumulator.onEvent
        simp only [hfresh]
      | refers _ hrefers => cases hrefers
  | messageDelta stopReason usage =>
    constructor
    · intro h
      obtain rfl := Except.ok.inj h
      exact .messageDelta stopReason usage hheader
    · intro h
      cases h with
      | messageDelta => rfl
      | refers _ hrefers => cases hrefers
  | usageSnapshot model usage iterations =>
    constructor
    · intro h
      obtain rfl := Except.ok.inj h
      exact .usageSnapshot model usage iterations hheader
    · intro h
      cases h with
      | usageSnapshot => rfl
      | refers _ hrefers => cases hrefers
  | messageStop =>
    unfold Accumulator.onEvent
    constructor
    · intro h
      cases hany : acc.blocks.values.any fun block => !block.closed with
      | true =>
        simp only [hany, if_true] at h
        cases h
      | false =>
        simp only [hany, Bool.false_eq_true, if_false] at h
        obtain rfl := Except.ok.inj h
        exact .messageStop hheader hany
    · intro h
      cases h with
      | messageStop _ hclosed => simp only [hclosed, Bool.false_eq_true, if_false]
      | refers _ hrefers => cases hrefers
  | textDelta index text => exact takes_refers hheader rfl
  | thinkingDelta index thinking => exact takes_refers hheader rfl
  | signatureDelta index signature => exact takes_refers hheader rfl
  | toolInputDelta index partialJson => exact takes_refers hheader rfl
  | blockStop index => exact takes_refers hheader rfl

theorem onEvent_messageStart {acc : Accumulator} (hheader : acc.header = none)
    (id : Option String) (model : String) (usage : Usage) :
    acc.onEvent fromStr (.messageStart id model usage) =
      .ok { acc with header := some (id, model), usage := usage } :=
  if_neg (by simp [hheader])

/-- What `push` accepts. -/
theorem push_eq_ok {acc acc' : Accumulator} {event : StreamEvent} :
    acc.push fromStr event = .ok acc' ↔ acc.stopped = false ∧ Takes fromStr acc event acc' := by
  cases hstopped : acc.stopped with
  | true =>
    unfold Accumulator.push
    rw [hstopped]
    simp
  | false =>
    cases hheader : acc.header with
    | none =>
      constructor
      · intro h
        unfold Accumulator.push at h
        rw [hstopped, hheader] at h
        cases event with
        | messageStart id model usage =>
          have hok : acc.onEvent fromStr (.messageStart id model usage) = .ok acc' := h
          rw [onEvent_messageStart hheader] at hok
          obtain rfl := Except.ok.inj hok
          exact ⟨rfl, .messageStart id model usage hheader⟩
        | _ => cases h
      · intro h
        obtain ⟨-, htakes⟩ := h
        have hnot : ¬acc.header.isSome = true := by simp [hheader]
        cases htakes with
        | messageStart id model usage =>
          have hpush : acc.push fromStr (.messageStart id model usage) =
              acc.onEvent fromStr (.messageStart id model usage) := by
            unfold Accumulator.push
            rw [hstopped, hheader]
            rfl
          rw [hpush]
          exact onEvent_messageStart hheader id model usage
        | blockStart _ _ hsome => exact absurd hsome hnot
        | refers hsome => exact absurd hsome hnot
        | messageDelta _ _ hsome => exact absurd hsome hnot
        | usageSnapshot _ _ _ hsome => exact absurd hsome hnot
        | messageStop hsome => exact absurd hsome hnot
    | some header =>
      rw [push_running hstopped hheader, onEvent_eq_ok (by simp [hheader])]
      exact ⟨fun h => ⟨rfl, h⟩, fun h => h.2⟩

/-! ### Blocks that have stopped -/

section Stopped

variable {index : Nat}

/-- A block that has stopped is final. -/
theorem takes_closed {acc acc' : Accumulator} {mapped : StreamEvent}
    (h : Takes fromStr acc mapped acc') {b : PendingBlock}
    (hget : acc.blocks.get? index = some b) (hclosed : b.closed = true) :
    acc'.blocks.get? index = some b := by
  cases h with
  | messageStart => exact hget
  | blockStart i block hheader hfresh =>
    have hne : index ≠ i := fun heq => by
      rw [heq, hfresh] at hget
      cases hget
    show (acc.blocks.insert i _).get? index = some b
    rw [SortedMap.get?_insert, if_neg hne]
    exact hget
  | @refers _ i b' r hheader hrefers hget' hopen htouch =>
    have hne : index ≠ i := fun heq => by
      rw [heq, hget'] at hget
      rw [Option.some.inj hget, hclosed] at hopen
      cases hopen
    show (acc.blocks.modify i _).get? index = some b
    rw [SortedMap.get?_modify, if_neg hne]
    exact hget
  | messageDelta => exact hget
  | usageSnapshot => exact hget
  | messageStop => exact hget

theorem pushes_closed {acc acc' : Accumulator} {mapped : List StreamEvent}
    (h : mapped.foldlM (Accumulator.push fromStr) acc = .ok acc') {b : PendingBlock}
    (hget : acc.blocks.get? index = some b) (hclosed : b.closed = true) :
    acc'.blocks.get? index = some b := by
  induction mapped generalizing acc with
  | nil =>
    obtain rfl := Except.ok.inj h
    exact hget
  | cons first rest ih =>
    obtain ⟨mid, hpush, hrest⟩ := Checks.foldlM_cons_ok.mp h
    exact ih hrest (takes_closed (push_eq_ok.mp hpush).2 hget hclosed)

/-- The blocks without those at some indices, which all have stopped. -/
structure Without (dropped : Nat → Prop) (blocks rest : SortedMap Nat PendingBlock) : Prop where
  kept : ∀ i, ¬dropped i → rest.get? i = blocks.get? i
  gone : ∀ i, dropped i → rest.get? i = none
  closed : ∀ i, dropped i → ∃ b, blocks.get? i = some b ∧ b.closed = true

/-- An event of another block does the same without the blocks that are gone. -/
theorem Without.takes {dropped : Nat → Prop} {acc acc' : Accumulator} {mapped : StreamEvent}
    {rest : SortedMap Nat PendingBlock} (h : Without dropped acc.blocks rest)
    (htakes : Takes fromStr acc mapped acc') :
    ∃ rest', Takes fromStr { acc with blocks := rest } mapped { acc' with blocks := rest' } ∧
      Without dropped acc'.blocks rest' := by
  cases htakes with
  | messageStart id model usage hheader =>
    exact ⟨rest, .messageStart id model usage hheader, h⟩
  | messageDelta stopReason usage hheader =>
    exact ⟨rest, .messageDelta stopReason usage hheader, h⟩
  | usageSnapshot model usage iterations hheader =>
    exact ⟨rest, .usageSnapshot model usage iterations hheader, h⟩
  | messageStop hheader hclosed =>
    refine ⟨rest, .messageStop hheader ?_, h⟩
    rw [List.any_eq_false] at hclosed ⊢
    intro b hb
    obtain ⟨i, hi⟩ := SortedMap.mem_values_iff.mp hb
    have hkept : ¬dropped i := fun hgone => by
      rw [h.gone i hgone] at hi
      cases hi
    exact hclosed b (SortedMap.mem_values_iff.mpr ⟨i, (h.kept i hkept) ▸ hi⟩)
  | blockStart i block hheader hfresh =>
    have hkept : ¬dropped i := fun hgone => by
      obtain ⟨b, hb, -⟩ := h.closed i hgone
      rw [hfresh] at hb
      cases hb
    have hfresh' : rest.get? i = none := (h.kept i hkept).trans hfresh
    refine ⟨_, .blockStart i block hheader hfresh', ?_⟩
    constructor
    · intro j hj
      show (rest.insert i _).get? j = (acc.blocks.insert i _).get? j
      rw [SortedMap.get?_insert, SortedMap.get?_insert, h.kept j hj]
    · intro j hj
      have hne : j ≠ i := fun heq => hkept (heq ▸ hj)
      show (rest.insert i _).get? j = none
      rw [SortedMap.get?_insert, if_neg hne, h.gone j hj]
    · intro j hj
      have hne : j ≠ i := fun heq => hkept (heq ▸ hj)
      show ∃ b, (acc.blocks.insert i _).get? j = some b ∧ b.closed = true
      rw [SortedMap.get?_insert, if_neg hne]
      exact h.closed j hj
  | @refers _ i b r hheader hrefers hget hopen htouch =>
    have hkept : ¬dropped i := fun hgone => by
      obtain ⟨b', hb', hclosed⟩ := h.closed i hgone
      rw [Option.some.inj (hget.symm.trans hb'), hclosed] at hopen
      cases hopen
    have hget' : rest.get? i = some b := (h.kept i hkept).trans hget
    have htakes : Takes fromStr { acc with blocks := rest } mapped
        (({ acc with blocks := rest } : Accumulator).touched i r) :=
      .refers hheader hrefers hget' hopen htouch
    refine ⟨_, htakes, ?_⟩
    constructor
    · intro j hj
      show (rest.modify i _).get? j = (acc.blocks.modify i _).get? j
      rw [SortedMap.get?_modify, SortedMap.get?_modify, h.kept j hj]
    · intro j hj
      have hne : j ≠ i := fun heq => hkept (heq ▸ hj)
      show (rest.modify i _).get? j = none
      rw [SortedMap.get?_modify, if_neg hne, h.gone j hj]
    · intro j hj
      have hne : j ≠ i := fun heq => hkept (heq ▸ hj)
      show ∃ b, (acc.blocks.modify i _).get? j = some b ∧ b.closed = true
      rw [SortedMap.get?_modify, if_neg hne]
      exact h.closed j hj

theorem Without.pushes {dropped : Nat → Prop} {acc acc' : Accumulator} {mapped : List StreamEvent}
    {rest : SortedMap Nat PendingBlock} (h : Without dropped acc.blocks rest)
    (hpush : mapped.foldlM (Accumulator.push fromStr) acc = .ok acc') :
    ∃ rest', mapped.foldlM (Accumulator.push fromStr) { acc with blocks := rest } =
        .ok { acc' with blocks := rest' } ∧ Without dropped acc'.blocks rest' := by
  induction mapped generalizing acc rest with
  | nil =>
    obtain rfl := Except.ok.inj hpush
    exact ⟨rest, rfl, h⟩
  | cons first others ih =>
    obtain ⟨mid, hfirst, hothers⟩ := Checks.foldlM_cons_ok.mp hpush
    obtain ⟨hstopped, htakes⟩ := push_eq_ok.mp hfirst
    obtain ⟨rest', htakes', hmid⟩ := h.takes htakes
    obtain ⟨rest'', hothers', hlast⟩ := ih hmid hothers
    refine ⟨rest'', Checks.foldlM_cons_ok.mpr ⟨{ mid with blocks := rest' }, ?_, hothers'⟩, hlast⟩
    exact push_eq_ok.mpr ⟨hstopped, htakes'⟩

theorem Without.congr {dropped dropped' : Nat → Prop} {blocks rest : SortedMap Nat PendingBlock}
    (h : Without dropped blocks rest) (hsame : ∀ i, dropped' i ↔ dropped i) :
    Without dropped' blocks rest := by
  rw [show dropped' = dropped from funext fun i => propext (hsame i)]
  exact h

end Stopped

end Kyora.Accumulation
