import Kyora.Framework.Pairing
import Kyora.Protocol

/-! # Well-formed conversations

  What a provider checks of a conversation: its tool uses are answered by the
  next message, one result for each in the same order. Only the kind and the
  id of a block matter for that, so it is said of shapes, which histories and
  request bodies both have.
-/

namespace Kyora.Conversation

/-- What matters of a block. -/
inductive Part where
  | use (id : String)
  | result (id : String)
  | text
  | other
  deriving DecidableEq, Repr

/-- What matters of a message. -/
structure Shape where
  role : Role
  parts : List Part
  deriving DecidableEq, Repr

/-- The id of a tool use. -/
def Part.use? : Part → Option String
  | .use id => some id
  | _ => none

/-- A part of a pair. -/
def Part.isTool : Part → Bool
  | .use _ | .result _ => true
  | _ => false

namespace Shape

/-- The ids used, in order and with repetitions. -/
def uses (m : Shape) : List String := m.parts.filterMap Part.use?

/-- An assistant message with tool uses. -/
def Opens (m : Shape) : Prop := m.role = .assistant ∧ m.uses ≠ []

/-- A user message with tool results. -/
def Answers (m : Shape) : Prop := m.role = .user ∧ ∃ id, .result id ∈ m.parts

theorem not_answers {m : Shape} (hrole : m.role = .assistant) : ¬ m.Answers := by
  intro h
  have huser := h.1
  rw [hrole] at huser
  cases huser

/-- `n` starts with one result for each tool use of `m`, and goes on with text. -/
def Closes (m n : Shape) : Prop :=
  ∃ texts, n.parts = m.uses.map Part.result ++ texts ∧ ∀ p ∈ texts, p = .text

/-- The parts of a pair that a message holds, if any. -/
def tools (m : Shape) : Option Shape :=
  let parts := m.parts.filter Part.isTool
  if parts.isEmpty then none else some ⟨m.role, parts⟩

end Shape

/-- The pairs of a conversation. -/
abbrev Paired : List Shape → Prop := Pairing.Paired Shape.Opens Shape.Answers Shape.Closes

/-- Tool uses and their results stand side by side. -/
structure Replies (messages : List Shape) : Prop where
  /-- Tool uses are answered by the next message. -/
  answered : ∀ {pre rest : List Shape} {m : Shape}, messages = pre ++ m :: rest → m.Opens →
    ∃ n rest', rest = n :: rest' ∧ n.role = .user ∧ m.Closes n
  /-- Nothing else is answered. -/
  asked : ∀ {pre rest : List Shape} {n : Shape}, messages = pre ++ n :: rest → n.Answers →
    ∃ pre' m, pre = pre' ++ [m] ∧ m.Opens ∧ m.Closes n

/-- What every request has to satisfy. -/
structure WellFormed (messages : List Shape) : Prop extends Replies messages where
  starts : ∃ first rest, messages = first :: rest ∧ first.role = .user

theorem Paired.replies {messages : List Shape} (h : Paired messages) : Replies messages where
  answered := fun hsplit hopens => by
    obtain ⟨n, rest', hrest, hanswers, hcloses⟩ := h.followed hsplit hopens
    exact ⟨n, rest', hrest, hanswers.1, hcloses⟩
  asked := fun hsplit hanswers => h.preceded hsplit hanswers

/-- A message that closes a message with tool uses has results. -/
theorem Shape.Closes.answers {m n : Shape} (h : m.Closes n) (hopens : m.Opens)
    (hrole : n.role = .user) : n.Answers := by
  obtain ⟨texts, hparts, -⟩ := h
  obtain ⟨id, ids, hids⟩ := List.exists_cons_of_ne_nil hopens.2
  refine ⟨hrole, id, ?_⟩
  rw [hparts, hids]
  exact List.mem_append_left _ List.mem_cons_self

theorem Replies.paired {messages : List Shape} (h : Replies messages) : Paired messages := by
  refine Pairing.paired_of (fun m hopens => Shape.not_answers hopens.1) ?_ ?_
  · intro pre m rest hsplit hopens
    obtain ⟨n, rest', hrest, hrole, hcloses⟩ := h.answered hsplit hopens
    exact ⟨n, rest', hrest, hcloses.answers hopens hrole, hcloses⟩
  · intro pre n rest hsplit hanswers
    exact h.asked hsplit hanswers

/-- A user message of text alone is no part of a pair. -/
theorem Paired.texts {messages : List Shape} (h : Paired messages) {parts : List Part}
    (htext : ∀ p ∈ parts, p = .text) : Paired (messages ++ [⟨.user, parts⟩]) := by
  refine h.snoc (fun hopens => ?_) (fun hanswers => ?_)
  · cases hopens.1
  · obtain ⟨-, id, hid⟩ := hanswers
    cases htext _ hid

/-- Neither is an assistant message without tool uses. -/
theorem Paired.reply {messages : List Shape} (h : Paired messages) {m : Shape}
    (hrole : m.role = .assistant) (huses : m.uses = []) : Paired (messages ++ [m]) :=
  h.snoc (fun hopens => hopens.2 huses) (Shape.not_answers hrole)

/-- An assistant message and its results are one pair. -/
theorem Paired.exchange {messages : List Shape} (h : Paired messages) {m : Shape}
    {texts : List Part} (hrole : m.role = .assistant) (huses : m.uses ≠ [])
    (htext : ∀ p ∈ texts, p = .text) :
    Paired (messages ++ [m] ++ [⟨.user, m.uses.map Part.result ++ texts⟩]) := by
  rw [List.append_assoc]
  refine h.append (.pair ⟨hrole, huses⟩ (Shape.not_answers hrole) ⟨rfl, ?_⟩
    (fun hopens => ?_) ⟨texts, rfl, htext⟩ .nil)
  · obtain ⟨id, ids, hids⟩ := List.exists_cons_of_ne_nil huses
    refine ⟨id, ?_⟩
    simp [hids]
  · cases hopens.1

/-! ### Shapes of messages -/

/-- What matters of a block of the history. -/
def part : ContentBlock → Part
  | .text _ => .text
  | .thinking _ _ => .other
  | .toolUse id _ _ => .use id
  | .toolResult id _ _ => .result id
  | .opaqueBlock _ _ _ => .other

def shape (m : Message) : Shape := ⟨m.role, m.content.map part⟩

/-- The ids of a message's tool uses are those of its shape. -/
theorem uses_shape (m : Message) : (shape m).uses = m.toolUses.map ToolUse.id := by
  unfold Shape.uses Message.toolUses shape
  rw [List.filterMap_map, List.map_filterMap]
  refine List.filterMap_congr fun b _ => ?_
  cases b <;> rfl

end Kyora.Conversation
