import Kyora.Fake.Stream

/-! # The accumulator reads back what a fake provider streams

  The accumulator never leaves the states of this file while it reads the stream:
  the blocks before an index are complete, and at most one more is open. Each
  delta of a block extends the one text it belongs to, so a block that stops is
  the block of the response.
-/

namespace Kyora.Fake

open Accumulation

/-! ### One open block -/

section Blocks

variable {fromStr : String → Option Json} {acc : Accumulator} {index : Nat}

/-- A message that has started and not stopped. -/
def Receiving (acc : Accumulator) : Prop := acc.header.isSome = true ∧ acc.stopped = false

/-- The accumulator with a block at an index. -/
def holding (acc : Accumulator) (index : Nat) (block : PendingBlock) : Accumulator :=
  { acc with blocks := acc.blocks.insert index block }

theorem Receiving.holding (h : Receiving acc) (block : PendingBlock) :
    Receiving (holding acc index block) := h

theorem push_of_receiving (h : Receiving acc) (event : StreamEvent) :
    acc.push fromStr event = acc.onEvent fromStr event := by
  obtain ⟨hheader, hstopped⟩ := h
  obtain ⟨header, heq⟩ := Option.isSome_iff_exists.mp hheader
  unfold Accumulator.push
  simp only [hstopped, heq, Bool.false_eq_true, if_false]

theorem foldlM_push_cons {event : StreamEvent} {next : Accumulator}
    (h : acc.push fromStr event = .ok next) (events : List StreamEvent) :
    (event :: events).foldlM (Accumulator.push fromStr) acc =
      events.foldlM (Accumulator.push fromStr) next := by
  rw [List.foldlM_cons, h]
  rfl

theorem openBlock_holding {block : PendingBlock} (hopen : block.closed = false) :
    (holding acc index block).openBlock index = .ok block := by
  unfold Accumulator.openBlock holding
  simp only [SortedMap.get?_insert, if_true, hopen, Bool.false_eq_true, if_false]

theorem setBlock_holding (block next : PendingBlock) :
    (holding acc index block).setBlock index next = holding acc index next := by
  unfold Accumulator.setBlock holding
  simp only [SortedMap.modify_insert]

/-! ### Its deltas -/

/-- Deltas that each extend one part of the open block. -/
theorem foldlM_deltas {σ : Type} (state : σ → PendingBlock) {grow : σ → String → σ}
    {delta : String → StreamEvent} (h : Receiving acc)
    (hstep : ∀ part piece,
      (holding acc index (state part)).onEvent fromStr (delta piece) =
        .ok (holding acc index (state (grow part piece))))
    (pieces : List String) (part : σ) :
    (pieces.map delta).foldlM (Accumulator.push fromStr) (holding acc index (state part)) =
      .ok (holding acc index (state (pieces.foldl grow part))) := by
  induction pieces generalizing part with
  | nil => rfl
  | cons piece pieces ih =>
    have hpush := (push_of_receiving (h.holding (state part)) (delta piece)).trans
      (hstep part piece)
    rw [List.map_cons, foldlM_push_cons hpush]
    exact ih (grow part piece)

theorem onEvent_textDelta (text piece : String) :
    (holding acc index ⟨.text text, "", false⟩).onEvent fromStr (.textDelta index piece) =
      .ok (holding acc index ⟨.text (text ++ piece), "", false⟩) := by
  show (do let block ← Accumulator.openBlock _ index; _) = _
  rw [openBlock_holding rfl]
  exact congrArg Except.ok (setBlock_holding _ _)

theorem onEvent_thinkingDelta (thinking piece : String) :
    (holding acc index ⟨.thinking thinking none, "", false⟩).onEvent fromStr
        (.thinkingDelta index piece) =
      .ok (holding acc index ⟨.thinking (thinking ++ piece) none, "", false⟩) := by
  show (do let block ← Accumulator.openBlock _ index; _) = _
  rw [openBlock_holding rfl]
  exact congrArg Except.ok (setBlock_holding _ _)

theorem onEvent_signatureDelta (thinking : String) (signature : Option String) (piece : String) :
    (holding acc index ⟨.thinking thinking signature, "", false⟩).onEvent fromStr
        (.signatureDelta index piece) =
      .ok (holding acc index
        ⟨.thinking thinking (some (signature.getD "" ++ piece)), "", false⟩) := by
  show (do let block ← Accumulator.openBlock _ index; _) = _
  rw [openBlock_holding rfl]
  exact congrArg Except.ok (setBlock_holding _ _)

theorem onEvent_toolInputDelta (id name json piece : String) :
    (holding acc index ⟨.toolUse id name .null, json, false⟩).onEvent fromStr
        (.toolInputDelta index piece) =
      .ok (holding acc index ⟨.toolUse id name .null, json ++ piece, false⟩) := by
  show (do let block ← Accumulator.openBlock _ index; _) = _
  rw [openBlock_holding rfl]
  exact congrArg Except.ok (setBlock_holding _ _)

/-- A signature is built from nothing: its first chunk makes it present. -/
theorem foldl_signature (signature : String) (chunkSize : Nat) :
    (chunks signature chunkSize).foldl
        (fun (part : Option String) piece => some (part.getD "" ++ piece)) none =
      some signature := by
  have hsome : ∀ (pieces : List String) (part : String),
      pieces.foldl (fun (part : Option String) piece => some (part.getD "" ++ piece))
        (some part) = some (pieces.foldl (· ++ ·) part) := by
    intro pieces
    induction pieces with
    | nil => exact fun part => rfl
    | cons piece pieces ih => exact fun part => ih (part ++ piece)
  obtain ⟨piece, pieces, heq⟩ := List.exists_cons_of_ne_nil (chunks_ne_nil signature chunkSize)
  calc (chunks signature chunkSize).foldl
        (fun (part : Option String) piece => some (part.getD "" ++ piece)) none
      = some (pieces.foldl (· ++ ·) ("" ++ piece)) := by rw [heq]; exact hsome _ _
    _ = some (String.join (chunks signature chunkSize)) := by rw [heq]; rfl
    _ = some signature := by rw [join_chunks]

/-! ### A whole block -/

/-- A value that JSON can carry: its text parses back to it. A JSON text is never
    empty. -/
def Prints (print : Json → Except String String) (fromStr : String → Option Json)
    (value : Json) : Prop :=
  ∃ text, print value = .ok text ∧ text ≠ "" ∧ fromStr text = some value

/-- A block that a model can produce. -/
def Streamable (print : Json → Except String String) (fromStr : String → Option Json) :
    ContentBlock → Prop
  | .toolUse _ _ input => Prints print fromStr input
  | .toolResult _ _ _ => False
  | _ => True

theorem onEvent_blockStop {content : ContentBlock} {json : String} {stopped : PendingBlock}
    (hstop : PendingBlock.stop fromStr ⟨content, json, false⟩ = (stopped, false)) :
    (holding acc index ⟨content, json, false⟩).onEvent fromStr (.blockStop index) =
      .ok (holding acc index stopped) := by
  have heq : (holding acc index ⟨content, json, false⟩).onEvent fromStr (.blockStop index) =
      .ok { (holding acc index ⟨content, json, false⟩).setBlock index
              (PendingBlock.stop fromStr ⟨content, json, false⟩).1 with
            invalidToolInputs :=
              if (PendingBlock.stop fromStr ⟨content, json, false⟩).2 then
                acc.invalidToolInputs ++ [index]
              else acc.invalidToolInputs } := by
    show (do let block ← Accumulator.openBlock _ index; _) = _
    rw [openBlock_holding rfl]
    rfl
  rw [heq, hstop, setBlock_holding]
  rfl

/-- The events of one block, from the state that its deltas lead to. -/
theorem foldlM_start_stop {block : BlockStart} {deltas : List StreamEvent}
    (opened : ContentBlock) {content : ContentBlock} {json : String} (h : Receiving acc)
    (hfresh : acc.blocks.get? index = none)
    (hdeltas : deltas.foldlM (Accumulator.push fromStr)
        (holding acc index ⟨startContent block, "", false⟩) =
      .ok (holding acc index ⟨opened, json, false⟩))
    (hstop : PendingBlock.stop fromStr ⟨opened, json, false⟩ = (⟨content, json, true⟩, false)) :
    (StreamEvent.blockStart index block :: deltas ++ [StreamEvent.blockStop index]).foldlM
        (Accumulator.push fromStr) acc =
      .ok (holding acc index ⟨content, json, true⟩) := by
  have hstart : acc.push fromStr (.blockStart index block) =
      .ok (holding acc index ⟨startContent block, "", false⟩) := by
    rw [push_of_receiving h]
    simp only [Accumulator.onEvent, hfresh, holding]
  have hclose := (push_of_receiving (h.holding ⟨opened, json, false⟩) (.blockStop index)).trans
    (onEvent_blockStop hstop)
  rw [List.cons_append, foldlM_push_cons hstart, List.foldlM_append, hdeltas]
  exact foldlM_push_cons hclose []

/-- The deltas of one text from its chunks. -/
theorem foldlM_chunks (state : String → PendingBlock) {delta : String → StreamEvent}
    (h : Receiving acc)
    (hstep : ∀ part piece,
      (holding acc index (state part)).onEvent fromStr (delta piece) =
        .ok (holding acc index (state (part ++ piece))))
    (text : String) (chunkSize : Nat) :
    ((chunks text chunkSize).map delta).foldlM (Accumulator.push fromStr)
        (holding acc index (state "")) =
      .ok (holding acc index (state text)) := by
  rw [foldlM_deltas state h hstep]
  show Except.ok (holding acc index (state (String.join _))) = _
  rw [join_chunks]

/-- The events of a block leave the block, complete. -/
theorem foldlM_block {print : Json → Except String String} {content : ContentBlock}
    (h : Receiving acc) (hfresh : acc.blocks.get? index = none)
    (hcontent : Streamable print fromStr content) (chunkSize : Nat) :
    ∃ block deltas json, blockEvents print chunkSize index content = .ok (block, deltas) ∧
      (StreamEvent.blockStart index block :: deltas ++ [StreamEvent.blockStop index]).foldlM
          (Accumulator.push fromStr) acc =
        .ok (holding acc index ⟨content, json, true⟩) := by
  cases content with
  | text text =>
    refine ⟨_, _, "", rfl, foldlM_start_stop (.text text) h hfresh ?_ rfl⟩
    exact foldlM_chunks (fun text => ⟨.text text, "", false⟩) h onEvent_textDelta
      text chunkSize
  | thinking thinking signature =>
    have hthinking := foldlM_chunks (fun thinking => ⟨.thinking thinking none, "", false⟩) h
      (@onEvent_thinkingDelta fromStr acc index) thinking chunkSize
    refine ⟨_, _, "", rfl,
      foldlM_start_stop (.thinking thinking signature) h hfresh ?_ rfl⟩
    rw [List.foldlM_append]
    refine (congrArg (· >>= _) hthinking).trans ?_
    cases signature with
    | none => rfl
    | some signature =>
      show ((chunks signature chunkSize).map _).foldlM _ _ = _
      rw [foldlM_deltas (fun signature => ⟨.thinking thinking signature, "", false⟩) h
        (onEvent_signatureDelta thinking), foldl_signature]
  | toolUse id name input =>
    obtain ⟨json, hprint, hne, hparse⟩ := hcontent
    have hevents : blockEvents print chunkSize index (.toolUse id name input) =
        .ok (.toolUse id name, (chunks json chunkSize).map (.toolInputDelta index)) := by
      simp only [blockEvents, hprint]
    refine ⟨_, _, json, hevents, foldlM_start_stop (.toolUse id name .null) h hfresh
      (foldlM_chunks (fun json => ⟨.toolUse id name .null, json, false⟩) h
        (onEvent_toolInputDelta id name) json chunkSize) ?_⟩
    -- The text is not empty, so it is parsed, and parses to the input.
    unfold PendingBlock.stop toolInput
    simp only [if_neg hne, hparse]
  | opaqueBlock provider kind raw =>
    exact ⟨_, _, "", rfl,
      foldlM_start_stop (.opaqueBlock provider kind raw) h hfresh rfl rfl⟩
  | toolResult id content isError => exact hcontent.elim

/-! ### The content -/

/-- The events of the content leave its blocks after those already there. -/
theorem foldlM_content {print : Json → Except String String} (chunkSize : Nat)
    {content : List ContentBlock} (hcontent : ∀ block ∈ content, Streamable print fromStr block)
    (h : Receiving acc)
    (hblocks : ∀ key block, acc.blocks.get? key = some block → key < index ∧ block.closed = true) :
    ∃ events blocks, contentEvents print chunkSize index content = .ok events ∧
      events.foldlM (Accumulator.push fromStr) acc = .ok { acc with blocks := blocks } ∧
      blocks.values.map PendingBlock.content =
        acc.blocks.values.map PendingBlock.content ++ content ∧
      ∀ key block, blocks.get? key = some block → block.closed = true := by
  induction content generalizing acc index with
  | nil =>
    exact ⟨[], acc.blocks, rfl, rfl, (List.append_nil _).symm,
      fun key block hget => (hblocks key block hget).2⟩
  | cons content rest ih =>
    have hfresh : acc.blocks.get? index = none := by
      by_contra hsome
      obtain ⟨block, hsome⟩ := Option.ne_none_iff_exists'.mp hsome
      exact absurd (hblocks index block hsome).1 (Nat.lt_irrefl index)
    obtain ⟨block, deltas, json, hblock, hrun⟩ :=
      foldlM_block h hfresh (hcontent content List.mem_cons_self) chunkSize
    have hnext : ∀ key block,
        (acc.blocks.insert index ⟨content, json, true⟩).get? key = some block →
        key < index + 1 ∧ block.closed = true := by
      intro key block hget
      rw [SortedMap.get?_insert] at hget
      by_cases hkey : key = index
      · rw [if_pos hkey] at hget
        cases hget
        exact ⟨by omega, rfl⟩
      · rw [if_neg hkey] at hget
        have hlt := hblocks key block hget
        exact ⟨by omega, hlt.2⟩
    obtain ⟨events, blocks, hevents, hrest, hvalues, hclosed⟩ :=
      ih (fun block hblock => hcontent block (List.mem_cons_of_mem content hblock))
        (h.holding ⟨content, json, true⟩) hnext
    refine ⟨StreamEvent.blockStart index block :: deltas ++ StreamEvent.blockStop index :: events,
      blocks, ?_, ?_, ?_, hclosed⟩
    · unfold contentEvents
      rw [hblock]
      show (do let events ← contentEvents print chunkSize (index + 1) rest; _) = _
      rw [hevents]
      rfl
    · have hsplit : StreamEvent.blockStart index block :: deltas ++
            StreamEvent.blockStop index :: events =
          (StreamEvent.blockStart index block :: deltas ++ [StreamEvent.blockStop index]) ++
            events := by
        simp
      rw [hsplit, List.foldlM_append, hrun]
      exact hrest
    · -- The new block has the largest index, so it comes last.
      have hlast : (acc.blocks.insert index ⟨content, json, true⟩).values =
          acc.blocks.values ++ [⟨content, json, true⟩] := by
        apply SortedMap.values_insert_last
        intro key hkey
        obtain ⟨block, hget⟩ := SortedMap.mem_keys_iff.mp hkey
        exact (hblocks key block hget).1
      rw [hvalues]
      show (acc.blocks.insert index ⟨content, json, true⟩).values.map _ ++ rest = _
      rw [hlast, List.map_append, List.append_assoc]
      rfl

end Blocks

/-! ### The whole stream -/

variable {print : Json → Except String String} {fromStr : String → Option Json}

/-- A stream that is not cancelled gives its events. -/
theorem streamItems_live {cancelled : Nat → Bool} (h : ∀ poll, cancelled poll = false)
    (poll : Nat) (events : List StreamEvent) :
    streamItems cancelled poll events = events.map .ok := by
  induction events generalizing poll with
  | nil => simp only [streamItems, h, Bool.false_eq_true, if_false, List.map_nil]
  | cons event events ih =>
    simp only [streamItems, h, Bool.false_eq_true, if_false, ih, List.map_cons]

/-- The counters are read back: the start has all but the output, which comes
    with the stop reason. -/
theorem updateUsage_output (usage : Usage) :
    updateUsage { usage with outputTokens := 0 }
      { (0 : Usage) with outputTokens := usage.outputTokens } = usage := by
  have hzero : ∀ n, updated n 0 = n := fun n => rfl
  have houtput : ∀ n, updated 0 n = n := by
    intro n
    unfold updated
    split <;> omega
  unfold updateUsage
  simp only [Usage.zero_def, hzero, houtput]

/-- The stop of a message whose blocks are all complete. -/
theorem push_messageStop {acc : Accumulator} (h : Receiving acc)
    (hclosed : ∀ key block, acc.blocks.get? key = some block → block.closed = true) :
    acc.push fromStr .messageStop = .ok { acc with stopped := true } := by
  have hall : (acc.blocks.values.any fun block => !block.closed) = false := by
    rw [List.any_eq_false]
    intro block hblock
    obtain ⟨key, hget⟩ := SortedMap.mem_values_iff.mp hblock
    rw [hclosed key block hget]
    exact Bool.false_ne_true
  rw [push_of_receiving h]
  simp only [Accumulator.onEvent, hall, Bool.false_eq_true, if_false]

/-- The events after the content bring the stop reason, the output counter and
    the attempts, where there are any. -/
theorem foldlM_end {acc : Accumulator} (response : CompleteResponse)
    (hheader : acc.header = some (response.id, response.model)) (hstopped : acc.stopped = false)
    (husage : acc.usage = { response.usage with outputTokens := 0 })
    (hiterations : acc.usageIterations = [])
    (hclosed : ∀ key block, acc.blocks.get? key = some block → block.closed = true) :
    (endEvents response).foldlM (Accumulator.push fromStr) acc =
      .ok { acc with
        usage := response.usage
        usageIterations := response.usageIterations
        stopReason := some response.stopReason
        stopped := true } := by
  have hreceiving : Receiving acc := ⟨by rw [hheader]; rfl, hstopped⟩
  have hdelta : acc.push fromStr (.messageDelta (some response.stopReason)
        { (0 : Usage) with outputTokens := response.usage.outputTokens }) =
      .ok { acc with usage := response.usage, stopReason := some response.stopReason } := by
    rw [push_of_receiving hreceiving]
    simp only [Accumulator.onEvent, husage, updateUsage_output, Option.some_or]
  have hcounted : Receiving
      { acc with usage := response.usage, stopReason := some response.stopReason } := hreceiving
  unfold endEvents
  rw [foldlM_push_cons hdelta]
  by_cases hempty : response.usageIterations = []
  · rw [if_neg (not_not.mpr hempty), List.nil_append,
      foldlM_push_cons (push_messageStop hcounted hclosed), hempty, ← hiterations]
    rfl
  · have hsnapshot : Accumulator.push fromStr
          { acc with usage := response.usage, stopReason := some response.stopReason }
          (.usageSnapshot response.model response.usage response.usageIterations) =
        .ok { acc with
          usage := response.usage
          usageIterations := response.usageIterations
          stopReason := some response.stopReason } := by
      rw [push_of_receiving hcounted]
      simp only [Accumulator.onEvent, hheader, Option.map_some]
    have hstop := @push_messageStop fromStr
      { acc with
        usage := response.usage
        usageIterations := response.usageIterations
        stopReason := some response.stopReason } hreceiving hclosed
    rw [if_pos hempty, List.singleton_append, foldlM_push_cons hsnapshot, foldlM_push_cons hstop]
    rfl

/-- Every response without tool results streams, for every request and every
    chunk size, and the accumulator builds it again from the events. -/
theorem response_round_trip (response : CompleteResponse) (request : ModelRequest)
    (chunkSize : Nat) (cancelled : Nat → Bool)
    (hcontent : ∀ block ∈ response.content, Streamable print fromStr block) :
    ∃ events,
      responseStream print response request chunkSize cancelled =
        .ok (streamItems cancelled 0 events) ∧
      ((∀ poll, cancelled poll = false) → streamItems cancelled 0 events = events.map .ok) ∧
      accumulate fromStr events = .ok (substituted response request, []) := by
  let served := substituted response request
  let start : StreamEvent :=
    .messageStart served.id served.model { served.usage with outputTokens := 0 }
  let started : Accumulator :=
    { Accumulator.new with
      header := some (served.id, served.model)
      usage := { served.usage with outputTokens := 0 } }
  have hstart : Accumulator.new.push fromStr start = .ok started := rfl
  obtain ⟨events, blocks, hevents, hcontents, hvalues, hclosed⟩ :=
    @foldlM_content fromStr started 0 print chunkSize _ hcontent ⟨rfl, rfl⟩
      (fun key block hget => by cases hget)
  have hend := @foldlM_end fromStr { started with blocks := blocks } served rfl rfl rfl rfl hclosed
  have hrun : (start :: events ++ endEvents served).foldlM (Accumulator.push fromStr)
        Accumulator.new =
      .ok { started with
        blocks := blocks
        usage := served.usage
        usageIterations := served.usageIterations
        stopReason := some served.stopReason
        stopped := true } := by
    rw [List.cons_append, foldlM_push_cons hstart, List.foldlM_append, hcontents]
    exact hend
  refine ⟨start :: events ++ endEvents served, ?_, fun h => streamItems_live h 0 _, ?_⟩
  · simp only [responseStream, responseEvents, substituted, hevents]
    rfl
  · have hblocks : blocks.values.map PendingBlock.content = served.content := hvalues
    unfold accumulate
    rw [hrun]
    show Except.ok ({ served with content := blocks.values.map PendingBlock.content }, []) = _
    rw [hblocks]

/-- A response with every kind of block, an empty text, an empty signature and
    neither a model nor counters. -/
def everyKind : CompleteResponse where
  content :=
    [.text "", .text "aß∂", .thinking "because" (some ""), .thinking "" none,
      .toolUse "call" "ls" (.object []), .opaqueBlock "anthropic" "redacted" .null]
  stopReason := .toolUse
  usage := 0
  id := some "m1"
  model := ""
  usageIterations := []

def oneTurn : ModelRequest where
  model := "fake"
  system := none
  messages := [⟨.user, [.text "go on"]⟩]
  tools := []
  maxTokens := 1
  options := ⟨none, none, false, none⟩

theorem response_round_trip_everyKind :
    ∃ events,
      responseStream (fun _ => .ok "\x7b\x7d") everyKind oneTurn 2 (fun _ => false) =
        .ok (events.map .ok) ∧
      accumulate (fun text => if text = "\x7b\x7d" then some (.object []) else none) events =
        .ok ({ everyKind with model := "fake", usage := ⟨1, 1, 0, 0⟩ }, []) := by
  have hcontent : ∀ block ∈ everyKind.content, Streamable (fun _ => .ok "\x7b\x7d")
      (fun text => if text = "\x7b\x7d" then some (.object []) else none) block := by
    intro block hblock
    simp only [everyKind, List.mem_cons, List.not_mem_nil, or_false] at hblock
    rcases hblock with rfl | rfl | rfl | rfl | rfl | rfl
    all_goals first | exact trivial | exact ⟨"\x7b\x7d", rfl, by decide, rfl⟩
  obtain ⟨events, hstream, hlive, hread⟩ :=
    response_round_trip everyKind oneTurn 2 (fun _ => false) hcontent
  rw [hlive fun _ => rfl] at hstream
  have hserved : substituted everyKind oneTurn =
      { everyKind with model := "fake", usage := ⟨1, 1, 0, 0⟩ } := by
    have husage : reportedUsage everyKind oneTurn = ⟨1, 1, 0, 0⟩ := by decide
    unfold substituted
    rw [husage]
    rfl
  rw [hserved] at hread
  exact ⟨events, hstream, hread⟩

end Kyora.Fake
