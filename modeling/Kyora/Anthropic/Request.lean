import Kyora.Conversation.Shape

/-! # The Messages API body

  `build_request` without IO. The body is a record of what it serializes; an
  absent member is `none`, and `raw` blocks are replayed as they came.
-/

namespace Kyora.Anthropic

open Conversation (Part Shape Paired part shape)

/-! ### Blocks and messages -/

inductive WireBlock where
  | text (text : String)
  | thinking (thinking signature : String)
  | toolUse (id name : String) (input : Json)
  | toolResult (toolUseId : String) (content : List ToolResultPart) (isError : Bool)
  | raw (value : Json)

structure WireMessage where
  role : Role
  content : List WireBlock

/-- The block as the API takes it, unless it cannot be replayed there. -/
def block : ContentBlock → Option WireBlock
  | .text text => some (.text text)
  | .thinking thinking (some signature) => some (.thinking thinking signature)
  | .thinking _ none => none
  | .toolUse id name input => some (.toolUse id name input)
  | .toolResult id content isError => some (.toolResult id content isError)
  | .opaqueBlock provider _ raw => if provider = "anthropic" then some (.raw raw) else none

/-- A message without any block left is dropped. -/
def wireMessage (m : Message) : Option WireMessage :=
  let content := m.content.filterMap block
  if content.isEmpty then none else some ⟨m.role, content⟩

/-! ### The body -/

structure SystemText where
  text : String
  /-- With an ephemeral `cache_control`. -/
  cached : Bool
  deriving DecidableEq, Repr

structure WireTool where
  name : String
  description : String
  inputSchema : Json
  eagerInputStreaming : Bool

/-- An adaptive `thinking` configuration. -/
structure Thinking where
  display : Option ThinkingDisplay
  /-- `prefix_mismatch_behavior`. -/
  blockBinding : Option String
  deriving DecidableEq, Repr

structure OutputConfig where
  effort : Option Effort
  /-- The total of a token budget. -/
  taskBudget : Option Nat
  deriving DecidableEq, Repr

structure Body where
  model : String
  maxTokens : Nat
  stream : Bool
  messages : List WireMessage
  /-- With an ephemeral `cache_control`. -/
  cached : Bool
  system : Option SystemText
  tools : Option (List WireTool)
  thinking : Option Thinking
  outputConfig : Option OutputConfig

/-- Capabilities of one model. -/
structure ModelCaps where
  /-- Whether to send an adaptive thinking configuration. -/
  adaptiveThinking : Bool

structure AnthropicConfig where
  extraBetas : List String
  prefixMismatchBehavior : String
  enableBlockBinding : Bool

def bindingBeta : String := "thinking-binding-controls-2026-08-01"

def taskBeta : String := "task-budgets-2026-03-13"

/-- The API's minimum accepted task budget. -/
def minTaskBudget : Nat := 20000

/-- Appends each beta that is not there yet. -/
def addBetas (betas extra : List String) : List String :=
  extra.foldl (fun betas beta => if betas.contains beta then betas else betas ++ [beta]) betas

/-- The Messages API body and the betas it needs. -/
def buildRequest (req : ModelRequest) (caps : ModelCaps) (cfg : AnthropicConfig) :
    Body × List String :=
  let cached := !req.options.disableCache
  let binding := caps.adaptiveThinking && cfg.enableBlockBinding
  let budget := req.options.taskBudgetTotal.filter (· ≥ minTaskBudget)
  let betas := (if binding then [bindingBeta] else []) ++ if budget.isSome then [taskBeta] else []
  let body : Body :=
    { model := req.model
      maxTokens := req.maxTokens
      stream := true
      messages := req.messages.filterMap wireMessage
      cached
      system := req.system.map fun text => ⟨text, cached⟩
      tools := if req.tools.isEmpty then none
        else some (req.tools.map fun tool =>
          ⟨tool.name, tool.description, tool.inputSchema, tool.largeInput⟩)
      thinking := if caps.adaptiveThinking then
          some ⟨req.options.thinkingDisplay,
            if cfg.enableBlockBinding then some cfg.prefixMismatchBehavior else none⟩
        else none
      outputConfig := if req.options.effort.isSome || budget.isSome then
          some ⟨req.options.effort, budget⟩
        else none }
  (body, addBetas betas cfg.extraBetas)

/-! ### Shapes of the body -/

/-- What matters of a block of the body. -/
def wirePart : WireBlock → Part
  | .text _ => .text
  | .thinking _ _ => .other
  | .toolUse id _ _ => .use id
  | .toolResult id _ _ => .result id
  | .raw _ => .other

def wireShape (m : WireMessage) : Shape := ⟨m.role, m.content.map wirePart⟩

/-- A block is replayed as what it is, and what is dropped is no part of a pair. -/
theorem block_part (b : ContentBlock) :
    (∃ w, block b = some w ∧ wirePart w = part b) ∨ (block b = none ∧ part b = .other) := by
  cases b with
  | text text => exact Or.inl ⟨_, rfl, rfl⟩
  | thinking thinking signature =>
    cases signature with
    | none => exact Or.inr ⟨rfl, rfl⟩
    | some signature => exact Or.inl ⟨_, rfl, rfl⟩
  | toolUse id name input => exact Or.inl ⟨_, rfl, rfl⟩
  | toolResult id content isError => exact Or.inl ⟨_, rfl, rfl⟩
  | opaqueBlock provider kind raw =>
    by_cases hprovider : provider = "anthropic"
    · exact Or.inl ⟨.raw raw, if_pos hprovider, rfl⟩
    · exact Or.inr ⟨if_neg hprovider, rfl⟩

/-- Whatever ignores the other parts reads the same in both. -/
theorem filterMap_parts {γ : Type} {read : Part → Option γ} (hother : read .other = none)
    (content : List ContentBlock) :
    ((content.filterMap block).map wirePart).filterMap read =
      (content.map part).filterMap read := by
  induction content with
  | nil => rfl
  | cons b content ih =>
    rcases block_part b with ⟨w, hw, hpart⟩ | ⟨hnone, hpart⟩
    · rw [List.filterMap_cons_some hw, List.map_cons, List.map_cons, hpart,
        List.filterMap_cons, List.filterMap_cons, ih]
    · rw [List.filterMap_cons_none hnone, List.map_cons, hpart,
        List.filterMap_cons_none hother, ih]

/-- Content without other parts is replayed whole. -/
theorem map_parts {content : List ContentBlock} (h : ∀ p ∈ content.map part, p ≠ .other) :
    (content.filterMap block).map wirePart = content.map part := by
  induction content with
  | nil => rfl
  | cons b content ih =>
    rw [List.map_cons, List.forall_mem_cons] at h
    rcases block_part b with ⟨w, hw, hpart⟩ | ⟨-, hpart⟩
    · rw [List.filterMap_cons_some hw, List.map_cons, List.map_cons, hpart, ih h.2]
    · exact absurd hpart h.1

/-- The shape of a message in the body. -/
def sent (m : Message) : Option Shape := (wireMessage m).map wireShape

theorem sent_eq_some {m : Message} {n : Shape} (h : sent m = some n) :
    n = ⟨m.role, (m.content.filterMap block).map wirePart⟩ := by
  unfold sent wireMessage at h
  simp only at h
  split at h
  · cases h
  · exact (Option.some.inj h).symm

/-- Only a message of other parts is dropped. -/
theorem sent_eq_none {m : Message} (h : sent m = none) {p : Part} (hp : p ∈ (shape m).parts) :
    p = .other := by
  unfold sent wireMessage at h
  simp only at h
  split at h
  · next hempty =>
    obtain ⟨b, hb, rfl⟩ := List.mem_map.mp hp
    rcases block_part b with ⟨w, hw, -⟩ | ⟨-, hpart⟩
    · have hnone := List.filterMap_eq_nil_iff.mp (List.isEmpty_iff.mp hempty) b hb
      rw [hw] at hnone
      cases hnone
    · exact hpart
  · cases h

theorem sent_uses {m : Message} {n : Shape} (h : sent m = some n) : n.uses = (shape m).uses := by
  rw [sent_eq_some h]
  exact filterMap_parts rfl m.content

theorem sent_results {m : Message} {n : Shape} (h : sent m = some n) (id : String) :
    .result id ∈ n.parts ↔ .result id ∈ (shape m).parts := by
  -- Read the results alone.
  let read : Part → Option String := fun
    | .result id => some id
    | _ => none
  have hread : ∀ parts : List Part, .result id ∈ parts ↔ id ∈ parts.filterMap read := by
    intro parts
    rw [List.mem_filterMap]
    constructor
    · intro hmem
      exact ⟨_, hmem, rfl⟩
    · rintro ⟨p, hp, heq⟩
      cases p with
      | result id' =>
        obtain rfl : id' = id := Option.some.inj heq
        exact hp
      | _ => cases heq
  rw [hread, hread, sent_eq_some h]
  show id ∈ (List.map wirePart _).filterMap read ↔ _
  rw [filterMap_parts rfl m.content]
  rfl

/-- Building the body keeps every pair. -/
theorem keeps_sent : Pairing.Keeps (fun m => (shape m).Opens) (fun m => (shape m).Answers)
    (fun m n => (shape m).Closes (shape n)) Shape.Opens Shape.Answers Shape.Closes sent where
  kept := by
    intro m hpair
    rw [Option.isSome_iff_ne_none]
    intro hnone
    -- A dropped message has neither tool uses nor results.
    rcases hpair with ⟨-, huses⟩ | ⟨-, id, hid⟩
    · obtain ⟨id, hid⟩ := List.exists_mem_of_ne_nil _ huses
      obtain ⟨p, hp, hread⟩ := List.mem_filterMap.mp hid
      rw [sent_eq_none hnone hp] at hread
      cases hread
    · cases sent_eq_none hnone hid
  opens := by
    intro m n h
    have hrole : n.role = (shape m).role := by rw [sent_eq_some h]; rfl
    unfold Shape.Opens
    rw [hrole, sent_uses h]
  answers := by
    intro m n h
    have hrole : n.role = (shape m).role := by rw [sent_eq_some h]; rfl
    unfold Shape.Answers
    simp only [hrole, sent_results h]
  closes := by
    intro m n m' n' hm hn ⟨texts, hparts, htext⟩
    refine ⟨texts, ?_, htext⟩
    rw [sent_uses hm, sent_eq_some hn]
    show (n.content.filterMap block).map wirePart = _
    rw [map_parts, ← hparts]
    · rfl
    · intro p hp
      have hmem : p ∈ (shape m).uses.map Part.result ++ texts := hparts ▸ hp
      rcases List.mem_append.mp hmem with hmem | hmem
      · obtain ⟨id, -, rfl⟩ := List.mem_map.mp hmem
        exact fun heq => by cases heq
      · rw [htext p hmem]
        exact fun heq => by cases heq

/-- The shapes of a built body. -/
theorem buildRequest_shapes (req : ModelRequest) (caps : ModelCaps) (cfg : AnthropicConfig) :
    (buildRequest req caps cfg).1.messages.map wireShape = req.messages.filterMap sent := by
  show (req.messages.filterMap wireMessage).map wireShape = _
  rw [List.map_filterMap]
  rfl

theorem sent_paired {messages : List Message} (h : Paired (messages.map shape)) :
    Paired (messages.filterMap sent) :=
  (Pairing.Paired.of_map h).filterMap keeps_sent

/-- The tool blocks of a body are those of the conversation. -/
theorem sent_tools (messages : List Message) :
    (messages.filterMap sent).filterMap Shape.tools = (messages.map shape).filterMap Shape.tools := by
  -- Keeping the parts of a pair ignores the other ones.
  have hfilter : ∀ content : List ContentBlock,
      ((content.filterMap block).map wirePart).filter Part.isTool =
        (content.map part).filter Part.isTool := by
    intro content
    rw [← List.filterMap_eq_filter, filterMap_parts rfl content, List.filterMap_eq_filter]
  induction messages with
  | nil => rfl
  | cons m messages ih =>
    rw [List.map_cons, List.filterMap_cons]
    cases hm : sent m with
    | none =>
      have hnone : Shape.tools (shape m) = none := by
        have hempty : (shape m).parts.filter Part.isTool = [] := by
          refine List.filter_eq_nil_iff.mpr fun p hp htool => ?_
          rw [sent_eq_none hm hp] at htool
          cases htool
        unfold Shape.tools
        simp only [hempty]
        rfl
      rw [List.filterMap_cons_none hnone]
      exact ih
    | some n =>
      have htools : Shape.tools n = Shape.tools (shape m) := by
        rw [sent_eq_some hm]
        unfold Shape.tools
        simp only [hfilter]
        rfl
      simp only [List.filterMap_cons, htools, ih]

end Kyora.Anthropic
