import Kyora.Conversation.Shape
import Kyora.Conversation.Steps

/-! # The history of one agent

  Where the loop stands says what it has recorded: a conversation of whole
  pairs, except between an assistant message and its results.
-/

namespace Kyora.Conversation

open Mailbox (Batch)

/-! ### User messages -/

/-- A delivery goes on with text. -/
theorem deliver_shape (cfg : Config) (content : List ContentBlock) (batch : Batch) :
    ∃ texts, (∀ p ∈ texts, p = .text) ∧
      shape (deliver cfg content batch) = ⟨.user, content.map part ++ texts⟩ := by
  refine ⟨batch.taken.map (fun _ => .text) ++ if batch.queued > 0 then [.text] else [], ?_, ?_⟩
  · intro p hp
    rcases List.mem_append.mp hp with hp | hp
    · obtain ⟨_, -, rfl⟩ := List.mem_map.mp hp
      rfl
    · split at hp
      · exact List.mem_singleton.mp hp
      · cases hp
  · unfold shape deliver
    simp only [List.map_append, List.append_assoc, List.map_map]
    congr 3
    split <;> rfl

/-- Whatever is delivered comes after the content. -/
theorem userTurn_shape (cfg : Config) (content : List ContentBlock) (deliverable : Bool)
    (batch : Batch) :
    ∃ texts, (∀ p ∈ texts, p = .text) ∧
      shape (userTurn cfg content deliverable batch) = ⟨.user, content.map part ++ texts⟩ := by
  unfold userTurn
  split
  · exact deliver_shape cfg content batch
  · refine ⟨[], ?_, ?_⟩
    · intro p hp
      cases hp
    · rw [List.append_nil]
      rfl

/-! ### What is recorded -/

/-- A conversation of whole pairs that starts with a text of the user. -/
structure Started (history : List Message) : Prop where
  paired : Paired (history.map shape)
  starts : ∃ first rest, history = first :: rest ∧ first.role = .user ∧
    Part.text ∈ (shape first).parts

/-- The results so far answer the tool uses in order. -/
def Turn.Answering (t : Turn) : Prop :=
  t.results.map part ++ t.pending.map (fun use => Part.result use.id) =
    t.assistant.toolUses.map fun use => Part.result use.id

/-- What the history holds where the loop stands. -/
def Recorded (s : State) : Prop :=
  match s.pc with
  | .opening => s.history = []
  | .tools t => ∃ history, s.history = history ++ [t.assistant] ∧ Started history ∧
    t.assistant.role = .assistant ∧ t.Answering
  | .ended _ | .aborted => True
  | _ => Started s.history

theorem Started.append {history : List Message} (h : Started history) {more : List Message}
    (hpaired : Paired ((history ++ more).map shape)) : Started (history ++ more) := by
  obtain ⟨first, rest, hsplit, hrole⟩ := h.starts
  exact ⟨hpaired, first, rest ++ more, by rw [hsplit]; rfl, hrole⟩

/-- A user message of text follows. -/
theorem Started.texts {history : List Message} (h : Started history) {m : Message}
    {parts : List Part} (hshape : shape m = ⟨.user, parts⟩) (htext : ∀ p ∈ parts, p = .text) :
    Started (history ++ [m]) := by
  refine h.append ?_
  rw [List.map_append, List.map_singleton, hshape]
  exact h.paired.texts htext

/-- A text and what is delivered with it are text. -/
theorem Started.userTurn {history : List Message} (h : Started history) (cfg : Config)
    (text : String) (deliverable : Bool) (batch : Batch) :
    Started (history ++ [userTurn cfg [.text text] deliverable batch]) := by
  obtain ⟨texts, htext, hshape⟩ := userTurn_shape cfg [.text text] deliverable batch
  refine h.texts hshape fun p hp => ?_
  rcases List.mem_append.mp hp with hp | hp
  · exact List.mem_singleton.mp hp
  · exact htext p hp

/-- The task starts a conversation. -/
theorem started_task (cfg : Config) (deliverable : Bool) (batch : Batch) :
    Started [userTurn cfg [.text cfg.task] deliverable batch] := by
  obtain ⟨texts, htext, hshape⟩ := userTurn_shape cfg [.text cfg.task] deliverable batch
  refine ⟨?_, _, [], rfl, congrArg Shape.role hshape, by rw [hshape]; exact List.mem_cons_self⟩
  rw [List.map_singleton, hshape]
  have hnil : Paired [] := .nil
  refine hnil.texts fun p hp => ?_
  rcases List.mem_append.mp hp with hp | hp
  · exact List.mem_singleton.mp hp
  · exact htext p hp

/-- An assistant message without tool uses follows. -/
theorem Started.reply {history : List Message} (h : Started history) {m : Message}
    (hrole : m.role = .assistant) (huses : m.toolUses = []) : Started (history ++ [m]) := by
  refine h.append ?_
  rw [List.map_append, List.map_singleton]
  refine h.paired.reply hrole ?_
  rw [uses_shape, huses, List.map_nil]

/-- An assistant message and all its results follow. -/
theorem Started.exchange {history : List Message} (h : Started history) {m n : Message}
    {texts : List Part} (hrole : m.role = .assistant) (huses : m.toolUses ≠ [])
    (hshape : shape n = ⟨.user, (m.toolUses.map fun use => Part.result use.id) ++ texts⟩)
    (htext : ∀ p ∈ texts, p = .text) : Started (history ++ [m] ++ [n]) := by
  have hids : (shape m).uses.map Part.result =
      m.toolUses.map fun use => Part.result use.id := by
    rw [uses_shape, List.map_map]
    rfl
  rw [List.append_assoc]
  refine h.append ?_
  rw [List.map_append, List.singleton_append, List.map_cons, List.map_singleton, hshape, ← hids]
  have hpair := h.paired.exchange hrole
    (fun hnil => huses (by rwa [uses_shape, List.map_eq_nil_iff] at hnil)) htext
  rwa [List.append_assoc] at hpair

/-! ### Steps -/

/-- A result answers the next of the pending tool uses. -/
theorem Turn.Answering.next {t : Turn} (h : t.Answering) {use : ToolUse}
    {pending : List ToolUse} (hpending : t.pending = use :: pending) (cfg : Config)
    (whole : Bool) (result : ToolOutput) (finalAnswer : Option Answer) :
    Turn.Answering { t with
      pending, finalAnswer, results := t.results ++ [toolResult cfg use whole result] } := by
  unfold Turn.Answering at h ⊢
  rw [hpending] at h
  rw [List.map_append, List.append_assoc]
  exact h

theorem Moves.recorded_of {cfg : Config} {s t : State} {l : Label} (h : Recorded s)
    (hmove : Moves cfg s l t) : Recorded t := by
  unfold Recorded at h
  cases hmove with
  | opened batch hpc =>
    rw [hpc] at h
    show Started (s.history ++ [userTurn cfg [.text cfg.task] true batch])
    rw [h]
    exact started_task cfg true batch
  | stopped stop hpc => exact trivial
  | capped hpc hturns => exact trivial
  | requested hpc hturns =>
    rw [hpc] at h
    exact h
  | failed error stop sent hpc => exact trivial
  | again sent response invalid hpc hretry =>
    rw [hpc] at h
    exact h
  | recorded sent response invalid hpc hretry =>
    rw [hpc] at h
    exact ⟨s.history, rfl, h, rfl, rfl⟩
  | answered u use pending stop output late result whole hpc hpending houtput =>
    rw [hpc] at h
    obtain ⟨history, hhistory, hstarted, hrole, hanswering⟩ := h
    exact ⟨history, hhistory, hstarted, hrole, hanswering.next hpending cfg whole _ _⟩
  | resultless u stop batch hpc hpending hresults =>
    rw [hpc] at h
    obtain ⟨history, hhistory, hstarted, hrole, hanswering⟩ := h
    -- No tool use is pending and none was answered, so there was none.
    have huses : u.assistant.toolUses = [] := by
      unfold Turn.Answering at hanswering
      rw [hpending, hresults] at hanswering
      exact List.map_eq_nil_iff.mp hanswering.symm
    show Started s.history
    rw [hhistory]
    exact hstarted.reply hrole huses
  | resulted u stop batch hpc hpending hresults =>
    rw [hpc] at h
    obtain ⟨history, hhistory, hstarted, hrole, hanswering⟩ := h
    unfold Turn.Answering at hanswering
    rw [hpending, List.map_nil, List.append_nil] at hanswering
    have huses : u.assistant.toolUses ≠ [] := by
      intro hnil
      rw [hnil, List.map_nil, List.map_eq_nil_iff] at hanswering
      exact hresults hanswering
    obtain ⟨texts, htext, hshape⟩ :=
      userTurn_shape cfg u.results (deliverable cfg s u stop) batch
    show Started (s.history ++ [userTurn cfg u.results (deliverable cfg s u stop) batch])
    rw [hhistory]
    rw [hanswering] at hshape
    exact hstarted.exchange hrole huses hshape htext
  | completed u value stop batch hpc hanswer => exact trivial
  | overtaken u stop batch hpc hanswer => exact trivial
  | wentOn u batch hpc hanswer hstop =>
    rw [hpc] at h
    exact h
  | outOfTurns u batch hpc hanswer hstop hturns => exact trivial
  | waiting u batch hpc hanswer hstop hturns =>
    rw [hpc] at h
    exact h
  | continued u batch hpc hanswer hstop hresults =>
    rw [hpc] at h
    exact h.userTurn cfg "continue" _ batch
  | gaveUp u batch status hpc hanswer hstatus => exact trivial
  | woken assistant found stop batch hpc =>
    rw [hpc] at h
    obtain ⟨texts, htext, hshape⟩ := deliver_shape cfg [] found
    exact h.texts hshape htext
  | idleStopped assistant stop batch hpc => exact trivial
  | idleCompleted assistant batch hpc houtput => exact trivial
  | reminded assistant batch hpc houtput hfirst =>
    rw [hpc] at h
    exact h.userTurn cfg submitReminder true batch
  | unsubmitted assistant answer batch hpc houtput hagain => exact trivial
  | aborted hended hpc => exact trivial

theorem recorded_of_reachable {cfg : Config} {s : State} (h : (conversation cfg).Reachable s) :
    Recorded s :=
  LTS.System.invariant (show Recorded (conversation cfg).init from rfl)
    (fun _ _ _ hs _ hstep => (step_moves hstep).recorded_of hs) s h

/-- The history and the requests only grow. -/
theorem Moves.grows {cfg : Config} {s t : State} {l : Label} (hmove : Moves cfg s l t) :
    s.history <+: t.history ∧ s.requests <+: t.requests := by
  cases hmove with
  | opened | recorded | resulted | continued | woken | reminded =>
    exact ⟨List.prefix_append _ _, List.prefix_rfl⟩
  | requested => exact ⟨List.prefix_rfl, List.prefix_append _ _⟩
  | _ => exact ⟨List.prefix_rfl, List.prefix_rfl⟩

theorem grows_of_run {cfg : Config} {s t : State} {ls : List Label}
    (h : (conversation cfg).run s ls = some t) :
    s.history <+: t.history ∧ s.requests <+: t.requests := by
  have hkept : ∀ u l v, (s.history <+: u.history ∧ s.requests <+: u.requests) →
      (conversation cfg).step u l = some v →
      s.history <+: v.history ∧ s.requests <+: v.requests := by
    intro u l v hu hstep
    have hgrows := (step_moves hstep).grows
    exact ⟨hu.1.trans hgrows.1, hu.2.trans hgrows.2⟩
  exact (conversation cfg).run_invariant hkept ⟨List.prefix_rfl, List.prefix_rfl⟩ h

/-- Every request was sent with a conversation that the history still starts
    with. -/
def Requested (s : State) : Prop :=
  ∀ r ∈ s.requests, Started r.request.messages ∧ r.request.messages <+: s.history

theorem requested_of_reachable {cfg : Config} {s : State} (h : (conversation cfg).Reachable s) :
    Requested s := by
  refine LTS.System.invariant_with (fun _ hs => recorded_of_reachable hs)
    (fun r hr => by cases hr) (fun s l t hs _ hrequested _ hstep => ?_) s h
  have hmove := step_moves hstep
  -- What was requested before is still a part of the history.
  have hold : ∀ r ∈ s.requests, Started r.request.messages ∧
      r.request.messages <+: t.history := fun r hr =>
    ⟨(hrequested r hr).1, (hrequested r hr).2.trans hmove.grows.1⟩
  cases hmove with
  | requested hpc hturns =>
    intro r hr
    rcases List.mem_append.mp hr with hr | hr
    · exact hold r hr
    · obtain rfl := List.mem_singleton.mp hr
      unfold Recorded at hs
      rw [hpc] at hs
      exact ⟨hs, List.prefix_rfl⟩
  | _ => exact hold

end Kyora.Conversation
