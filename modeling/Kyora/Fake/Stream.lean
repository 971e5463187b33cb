import Kyora.Accumulation.Basic

/-! # The stream of a fake provider

  `response_stream` turns a whole response into the events that a real provider
  would send: one start, the blocks with their texts cut into chunks, the stop
  reason and the counters.
-/

namespace Kyora.Fake

open Accumulation (CompleteResponse)

/-! ### Chunks -/

/-- One character of the loop of `chunks`. The state holds the chunks so far and
    the characters from `start` up to the index. -/
def chunkStep (size : Nat) (state : List String × String) (character : Char) :
    List String × String :=
  let (chunks, pending) := state
  if pending ≠ "" ∧ pending.utf8ByteSize + character.utf8Size > size then
    (chunks ++ [pending], String.singleton character)
  else (chunks, pending.push character)

/-- `chunks`. The rest of the text is always a chunk. -/
def chunks (text : String) (size : Nat) : List String :=
  let (chunks, pending) := text.toList.foldl (chunkStep size) ([], "")
  chunks ++ [pending]

/-- One step neither drops nor reorders a character. -/
theorem join_chunkStep (size : Nat) (state : List String × String) (character : Char) :
    (String.join (chunkStep size state character).1 ++
        (chunkStep size state character).2).toList =
      (String.join state.1 ++ state.2).toList ++ [character] := by
  obtain ⟨chunks, pending⟩ := state
  unfold chunkStep
  by_cases hcut : pending ≠ "" ∧ pending.utf8ByteSize + character.utf8Size > size
  · simp only [if_pos hcut, String.join_append, String.join_cons, String.join_nil,
      String.append_empty, String.toList_append, String.toList_singleton]
  · simp only [if_neg hcut, String.toList_append, String.toList_push, List.append_assoc]

theorem join_foldl_chunkStep (size : Nat) (text : List Char) (state : List String × String) :
    (String.join (text.foldl (chunkStep size) state).1 ++
        (text.foldl (chunkStep size) state).2).toList =
      (String.join state.1 ++ state.2).toList ++ text := by
  induction text generalizing state with
  | nil => rw [List.foldl_nil, List.append_nil]
  | cons character text ih => rw [List.foldl_cons, ih, join_chunkStep, List.append_assoc]; rfl

/-- The chunks are the text. -/
theorem join_chunks (text : String) (size : Nat) : String.join (chunks text size) = text := by
  have h := join_foldl_chunkStep size text.toList ([], "")
  apply String.toList_inj.mp
  show (String.join (_ ++ [_])).toList = _
  rw [String.join_append, String.join_cons, String.join_nil, String.append_empty, h]
  simp

theorem chunks_ne_nil (text : String) (size : Nat) : chunks text size ≠ [] :=
  List.append_ne_nil_of_right_ne_nil _ (List.cons_ne_nil _ _)

/-- A chunk is at most as long as asked, or a single character. -/
def Fits (size : Nat) (chunk : String) : Prop :=
  chunk.utf8ByteSize ≤ size ∨ ∃ character, chunk = String.singleton character

theorem fits_chunkStep {size : Nat} {state : List String × String} (character : Char)
    (h : ∀ chunk ∈ state.1, Fits size chunk) (hpending : Fits size state.2) :
    (∀ chunk ∈ (chunkStep size state character).1, Fits size chunk) ∧
      Fits size (chunkStep size state character).2 := by
  obtain ⟨chunks, pending⟩ := state
  unfold chunkStep
  by_cases hcut : pending ≠ "" ∧ pending.utf8ByteSize + character.utf8Size > size
  · simp only [if_pos hcut]
    refine ⟨?_, .inr ⟨character, rfl⟩⟩
    intro chunk hchunk
    rcases List.mem_append.mp hchunk with hchunk | hchunk
    · exact h chunk hchunk
    · rw [List.mem_singleton.mp hchunk]
      exact hpending
  · simp only [if_neg hcut]
    refine ⟨h, ?_⟩
    by_cases hempty : pending = ""
    · -- A character alone is never cut, however long it is.
      exact .inr ⟨character, by rw [hempty]; rfl⟩
    · left
      have hle := not_and.mp hcut hempty
      rw [String.utf8ByteSize_push]
      omega

/-- No chunk exceeds the size, except where one character does. -/
theorem fits_chunks (text : String) (size : Nat) :
    ∀ chunk ∈ chunks text size, Fits size chunk := by
  have hrun : ∀ (cs : List Char) (state : List String × String),
      (∀ chunk ∈ state.1, Fits size chunk) → Fits size state.2 →
      (∀ chunk ∈ (cs.foldl (chunkStep size) state).1, Fits size chunk) ∧
        Fits size (cs.foldl (chunkStep size) state).2 := by
    intro cs
    induction cs with
    | nil => exact fun _ h hpending => ⟨h, hpending⟩
    | cons c cs ih =>
      intro state h hpending
      obtain ⟨h', hpending'⟩ := fits_chunkStep c h hpending
      exact ih _ h' hpending'
  obtain ⟨hchunks, hlast⟩ := hrun text.toList ([], "") (fun _ h => absurd h List.not_mem_nil)
    (.inl (Nat.zero_le _))
  intro chunk hchunk
  rcases List.mem_append.mp hchunk with hchunk | hchunk
  · exact hchunks chunk hchunk
  · rw [List.mem_singleton.mp hchunk]
    exact hlast

/-! ### Substitutions -/

/-- The model that the stream names. -/
def servedModel (response : CompleteResponse) (request : ModelRequest) : String :=
  if response.model = "" then request.model else response.model

/-- The bytes that the input is estimated by. -/
def inputBytes (request : ModelRequest) : Nat :=
  (request.system.elim 0 String.utf8ByteSize) +
    (request.messages.map fun message => message.text.utf8ByteSize).sum

/-- The bytes that the output is estimated by. -/
def outputBytes (content : List ContentBlock) : Nat :=
  (content.map fun
    | .text text => text.utf8ByteSize
    | _ => 0).sum

/-- The counters that the stream reports. -/
def reportedUsage (response : CompleteResponse) (request : ModelRequest) : Usage :=
  if response.usage = 0 then
    { inputTokens := max (inputBytes request / 4) 1
      outputTokens := max (outputBytes response.content / 4) 1
      cacheCreationInputTokens := 0
      cacheReadInputTokens := 0 }
  else response.usage

/-- The response that the stream stands for. -/
def substituted (response : CompleteResponse) (request : ModelRequest) : CompleteResponse :=
  { response with
    model := servedModel response request
    usage := reportedUsage response request }

/-! ### Events -/

section Events

-- `serde_json::to_string` on a value.
variable (print : Json → Except String String)

/-- The start of a block and its deltas. -/
def blockEvents (chunkSize index : Nat) :
    ContentBlock → Except ProviderError (BlockStart × List StreamEvent)
  | .text text => .ok (.text, (chunks text chunkSize).map (.textDelta index))
  | .thinking thinking signature =>
    .ok (.thinking, (chunks thinking chunkSize).map (.thinkingDelta index) ++
      match signature with
      | some signature => (chunks signature chunkSize).map (.signatureDelta index)
      | none => [])
  | .toolUse id name input =>
    match print input with
    | .error error => .error (.protocol error)
    | .ok json => .ok (.toolUse id name, (chunks json chunkSize).map (.toolInputDelta index))
  | .opaqueBlock provider kind raw => .ok (.opaqueBlock provider kind raw, [])
  | .toolResult _ _ _ =>
    .error (.protocol "tool results cannot be streamed as model output")

/-- The loop of `response_stream` over the content, from an index. -/
def contentEvents (chunkSize : Nat) :
    Nat → List ContentBlock → Except ProviderError (List StreamEvent)
  | _, [] => .ok []
  | index, content :: rest => do
    let (block, deltas) ← blockEvents print chunkSize index content
    let events ← contentEvents chunkSize (index + 1) rest
    return .blockStart index block :: deltas ++ .blockStop index :: events

/-- The events after the content. -/
def endEvents (response : CompleteResponse) : List StreamEvent :=
  .messageDelta (some response.stopReason)
    { (0 : Usage) with outputTokens := response.usage.outputTokens } ::
  ((if response.usageIterations ≠ [] then
      [.usageSnapshot response.model response.usage response.usageIterations]
    else []) ++
  [.messageStop])

/-- The events that `response_stream` collects. -/
def responseEvents (response : CompleteResponse) (request : ModelRequest) (chunkSize : Nat) :
    Except ProviderError (List StreamEvent) := do
  let response := substituted response request
  let events ← contentEvents print chunkSize 0 response.content
  return .messageStart response.id response.model { response.usage with outputTokens := 0 } ::
    events ++ endEvents response

/-- What polling the stream gives. It looks at the token before each event, and
    nothing follows a cancellation. -/
def streamItems (cancelled : Nat → Bool) :
    Nat → List StreamEvent → List (Except ProviderError StreamEvent)
  | poll, [] => if cancelled poll then [.error .cancelled] else []
  | poll, event :: events =>
    if cancelled poll then [.error .cancelled]
    else .ok event :: streamItems cancelled (poll + 1) events

/-- `response_stream`, under a token that is cancelled at some of the polls. -/
def responseStream (response : CompleteResponse) (request : ModelRequest) (chunkSize : Nat)
    (cancelled : Nat → Bool) :
    Except ProviderError (List (Except ProviderError StreamEvent)) := do
  let events ← responseEvents print response request chunkSize
  return streamItems cancelled 0 events

end Events

end Kyora.Fake
