import Kyora.Conversation.Basic

/-! # What one step of the loop does

  `Moves` lists the branches of the loop with what holds where each is taken;
  a step is one of them.
-/

namespace Kyora.Conversation

open Mailbox (Batch)

/-- The invalid calls of a response, those the toolset refuses included. -/
def allInvalid (cfg : Config) (response : ModelResponse) (invalid : List (String × String)) :
    List (String × String) :=
  collectInvalid cfg (Message.toolUses ⟨.assistant, response.content⟩) invalid

/-- The assistant message recorded for a response. -/
def assistantOf (cfg : Config) (response : ModelResponse) (invalid : List (String × String)) :
    Message :=
  ⟨.assistant, response.content.map (clearInvalid (allInvalid cfg response invalid))⟩

/-- A response is discarded and asked for again. -/
def Retries (cfg : Config) (s : State) (response : ModelResponse)
    (invalid : List (String × String)) : Prop :=
  (allInvalid cfg response invalid).isEmpty = false ∧ response.stopReason = .maxTokens ∧
    s.invalidRetry = false

/-- Pending messages are delivered with the results. -/
def deliverable (cfg : Config) (s : State) (t : Turn) (stop : Option Stop) : Bool :=
  t.finalAnswer.isNone && stop.isNone && s.turns < cfg.maxTurns && continues t.stopReason

inductive Moves (cfg : Config) (s : State) : Label → State → Prop where
  | opened (batch : Batch) (hpc : s.pc = .opening) :
      Moves cfg s (.opened batch)
        { s.message (userTurn cfg [.text cfg.task] true batch) with pc := .head }
  | stopped (stop : Stop) (hpc : s.pc = .head) :
      Moves cfg s (.request (some stop)) { s with pc := .ended stop.status }
  | capped (hpc : s.pc = .head) (hturns : cfg.maxTurns ≤ s.turns) :
      Moves cfg s (.request none) { s with pc := .ended .maxTurns }
  | requested (hpc : s.pc = .head) (hturns : s.turns < cfg.maxTurns) :
      Moves cfg s (.request none) { s with
        pc := .requesting s.history.length
        requests := s.requests ++ [⟨s.nextRequest cfg, s.previous⟩] }
  | failed (error : CallError) (stop : Stop) (sent : Nat) (hpc : s.pc = .requesting sent) :
      Moves cfg s (.failed error stop) { s with pc := .ended (statusFor stop error) }
  | again (sent : Nat) (response : ModelResponse) (invalid : List (String × String))
      (hpc : s.pc = .requesting sent) (hretry : Retries cfg s response invalid) :
      Moves cfg s (.responded response invalid)
        { s with invalidRetry := true, outputCap := doubleCap s.outputCap, pc := .head }
  | recorded (sent : Nat) (response : ModelResponse) (invalid : List (String × String))
      (hpc : s.pc = .requesting sent) (hretry : ¬ Retries cfg s response invalid) :
      Moves cfg s (.responded response invalid)
        { s.message (assistantOf cfg response invalid) with
          invalidRetry := false
          outputCap := cfg.limits.maxOutputTokens
          previous := some (response.usage, sent)
          turns := s.turns + 1
          answer := if (assistantOf cfg response invalid).text.isEmpty then s.answer
            else .text (assistantOf cfg response invalid).text
          pc := .tools {
            assistant := assistantOf cfg response invalid
            invalid := allInvalid cfg response invalid
            stopReason := response.stopReason
            pending := (assistantOf cfg response invalid).toolUses
            results := []
            finalAnswer := none } }
  | answered (t : Turn) (use : ToolUse) (pending : List ToolUse) (stop : Option Stop)
      (output : ToolOutput) (late : Option Stop) (result : ToolOutput) (whole : Bool)
      (hpc : s.pc = .tools t) (hpending : t.pending = use :: pending)
      (houtput : toolOutput cfg t use stop output = some (result, whole)) :
      Moves cfg s (.tool stop output late)
        { s with pc := .tools { t with
          pending
          finalAnswer := (commit cfg t late result).2
          results := t.results ++ [toolResult cfg use whole (commit cfg t late result).1] } }
  | resultless (t : Turn) (stop : Option Stop) (batch : Batch) (hpc : s.pc = .tools t)
      (hpending : t.pending = []) (hresults : t.results = []) :
      Moves cfg s (.results stop batch) { s with pc := .deciding t }
  | resulted (t : Turn) (stop : Option Stop) (batch : Batch) (hpc : s.pc = .tools t)
      (hpending : t.pending = []) (hresults : t.results ≠ []) :
      Moves cfg s (.results stop batch)
        { s.message (userTurn cfg t.results (deliverable cfg s t stop) batch) with
          pc := .deciding t }
  | completed (t : Turn) (value : Answer) (stop : Option Stop) (batch : Batch)
      (hpc : s.pc = .deciding t) (hanswer : t.finalAnswer = some value) :
      Moves cfg s (.decide stop batch) { s with answer := value, pc := .ended .completed }
  | overtaken (t : Turn) (stop : Stop) (batch : Batch) (hpc : s.pc = .deciding t)
      (hanswer : t.finalAnswer = none) :
      Moves cfg s (.decide (some stop) batch) { s with pc := .ended stop.status }
  | wentOn (t : Turn) (batch : Batch) (hpc : s.pc = .deciding t)
      (hanswer : t.finalAnswer = none)
      (hstop : t.stopReason = .toolUse ∨ t.stopReason = .pauseTurn ∨
        t.stopReason = .maxTokens ∧ t.results ≠ []) :
      Moves cfg s (.decide none batch) { s with pc := .head }
  | outOfTurns (t : Turn) (batch : Batch) (hpc : s.pc = .deciding t)
      (hanswer : t.finalAnswer = none) (hstop : t.stopReason = .endTurn)
      (hturns : cfg.maxTurns ≤ s.turns) :
      Moves cfg s (.decide none batch) { s with
        answer := .text t.assistant.text
        pc := .ended (if cfg.output.isSome then .maxTurns else .completed) }
  | waiting (t : Turn) (batch : Batch) (hpc : s.pc = .deciding t)
      (hanswer : t.finalAnswer = none) (hstop : t.stopReason = .endTurn)
      (hturns : s.turns < cfg.maxTurns) :
      Moves cfg s (.decide none batch) { s with
        answer := .text t.assistant.text, pc := .idling t.assistant }
  | continued (t : Turn) (batch : Batch) (hpc : s.pc = .deciding t)
      (hanswer : t.finalAnswer = none) (hstop : t.stopReason = .maxTokens)
      (hresults : t.results = []) :
      Moves cfg s (.decide none batch)
        { s.message (userTurn cfg [.text "continue"] (s.turns < cfg.maxTurns) batch) with
          pc := .head }
  | gaveUp (t : Turn) (batch : Batch) (status : Status) (hpc : s.pc = .deciding t)
      (hanswer : t.finalAnswer = none)
      (hstatus : status = .contextExhausted ∨ status = .refused ∨ status = .failed) :
      Moves cfg s (.decide none batch) { s with pc := .ended status }
  | woken (assistant : Message) (found : Batch) (stop : Option Stop) (batch : Batch)
      (hpc : s.pc = .idling assistant) :
      Moves cfg s (.idled (some found) stop batch)
        { s.message (deliver cfg [] found) with pc := .head }
  | idleStopped (assistant : Message) (stop : Stop) (batch : Batch)
      (hpc : s.pc = .idling assistant) :
      Moves cfg s (.idled none (some stop) batch) { s with pc := .ended stop.status }
  | idleCompleted (assistant : Message) (batch : Batch) (hpc : s.pc = .idling assistant)
      (houtput : cfg.output = none) :
      Moves cfg s (.idled none none batch) { s with pc := .ended .completed }
  | reminded (assistant : Message) (batch : Batch) (hpc : s.pc = .idling assistant)
      (houtput : cfg.output.isSome = true) (hfirst : s.reminded = false) :
      Moves cfg s (.idled none none batch)
        { s.message (userTurn cfg [.text submitReminder] true batch) with
          reminded := true, pc := .head }
  | unsubmitted (assistant : Message) (answer : Answer) (batch : Batch)
      (hpc : s.pc = .idling assistant) (houtput : cfg.output.isSome = true)
      (hagain : s.reminded = true) :
      Moves cfg s (.idled none none batch) { s with answer, pc := .ended .failed }
  | aborted (hended : ∀ status, s.pc ≠ .ended status) (hpc : s.pc ≠ .aborted) :
      Moves cfg s .abort { s with pc := .aborted }

theorem moves_request {cfg : Config} {s : State} (stop : Option Stop) (hpc : s.pc = .head) :
    Moves cfg s (.request stop) (stepRequest cfg s stop) := by
  unfold stepRequest
  cases stop with
  | some stop => exact .stopped stop hpc
  | none =>
    simp only
    split
    · next hturns => exact .capped hpc hturns
    · next hturns => exact .requested hpc (Nat.lt_of_not_le hturns)

theorem moves_responded {cfg : Config} {s : State} {sent : Nat} (response : ModelResponse)
    (invalid : List (String × String)) (hpc : s.pc = .requesting sent) :
    Moves cfg s (.responded response invalid) (stepResponded cfg s sent response invalid) := by
  unfold stepResponded
  simp only
  split
  · next hretry =>
    simp only [Bool.and_eq_true, Bool.not_eq_true', beq_iff_eq] at hretry
    exact .again sent response invalid hpc ⟨hretry.1.1, hretry.1.2, hretry.2⟩
  · next hretry =>
    refine .recorded sent response invalid hpc fun ⟨hsome, hmax, hfirst⟩ => hretry ?_
    unfold allInvalid at hsome
    simp [hsome, hmax, hfirst]

theorem moves_tool {cfg : Config} {s t' : State} {t : Turn} {stop : Option Stop}
    {output : ToolOutput} {late : Option Stop} (hpc : s.pc = .tools t)
    (h : stepTool cfg s t stop output late = some t') :
    Moves cfg s (.tool stop output late) t' := by
  unfold stepTool at h
  split at h
  · cases h
  · next use pending hpending =>
    obtain ⟨⟨result, whole⟩, houtput, rfl⟩ := Option.map_eq_some_iff.mp h
    exact .answered t use pending stop output late result whole hpc hpending houtput

theorem moves_results {cfg : Config} {s t' : State} {t : Turn} {stop : Option Stop}
    {batch : Batch} (hpc : s.pc = .tools t) (h : stepResults cfg s t stop batch = some t') :
    Moves cfg s (.results stop batch) t' := by
  unfold stepResults at h
  split at h
  · cases h
  · next hpending =>
    split at h
    · next hempty =>
      obtain rfl := Option.some.inj h
      exact .resultless t stop batch hpc hpending (List.isEmpty_iff.mp hempty)
    · next hsome =>
      obtain rfl := Option.some.inj h
      exact .resulted t stop batch hpc hpending fun hnil => hsome (List.isEmpty_iff.mpr hnil)

theorem moves_decide {cfg : Config} {s : State} {t : Turn} (stop : Option Stop) (batch : Batch)
    (hpc : s.pc = .deciding t) :
    Moves cfg s (.decide stop batch) (stepDecide cfg s t stop batch) := by
  unfold stepDecide
  split
  · next _ value hanswer => exact .completed t value _ batch hpc hanswer
  · next stop' hanswer => exact .overtaken t stop' batch hpc hanswer
  · next hanswer =>
    split
    · next hstop => exact .wentOn t batch hpc hanswer (Or.inl hstop)
    · next hstop => exact .wentOn t batch hpc hanswer (Or.inr (Or.inl hstop))
    · next hstop =>
      simp only
      split
      · next hturns => exact .outOfTurns t batch hpc hanswer hstop hturns
      · next hturns => exact .waiting t batch hpc hanswer hstop (Nat.lt_of_not_le hturns)
    · next hstop =>
      split
      · next hempty =>
        exact .continued t batch hpc hanswer hstop (List.isEmpty_iff.mp hempty)
      · next hsome =>
        exact .wentOn t batch hpc hanswer
          (Or.inr (Or.inr ⟨hstop, fun hnil => hsome (List.isEmpty_iff.mpr hnil)⟩))
    · exact .gaveUp t batch _ hpc hanswer (Or.inl rfl)
    · exact .gaveUp t batch _ hpc hanswer (Or.inr (Or.inl rfl))
    · exact .gaveUp t batch _ hpc hanswer (Or.inr (Or.inr rfl))

theorem moves_idled {cfg : Config} {s : State} {assistant : Message} (found : Option Batch)
    (stop : Option Stop) (batch : Batch) (hpc : s.pc = .idling assistant) :
    Moves cfg s (.idled found stop batch) (stepIdled cfg s assistant found stop batch) := by
  unfold stepIdled
  split
  · next _ found' => exact .woken assistant found' _ batch hpc
  · next stop' => exact .idleStopped assistant stop' batch hpc
  · split
    · next hnone => exact .idleCompleted assistant batch hpc (Option.isNone_iff_eq_none.mp hnone)
    · next hsome =>
      have houtput : cfg.output.isSome = true :=
        Option.isSome_iff_ne_none.mpr fun hnone => hsome (Option.isNone_iff_eq_none.mpr hnone)
      split
      · next hfirst => exact .reminded assistant batch hpc houtput (by simpa using hfirst)
      · next hagain => exact .unsubmitted assistant _ batch hpc houtput (by simpa using hagain)

theorem step_moves {cfg : Config} {s t : State} {l : Label} (h : step cfg s l = some t) :
    Moves cfg s l t := by
  cases l with
  | opened batch =>
    simp only [step] at h
    split at h
    · next hpc =>
      obtain rfl := Option.some.inj h
      exact .opened batch hpc
    · cases h
  | request stop =>
    simp only [step] at h
    split at h
    · next hpc =>
      obtain rfl := Option.some.inj h
      exact moves_request stop hpc
    · cases h
  | failed error stop =>
    simp only [step] at h
    split at h
    · next sent hpc =>
      obtain rfl := Option.some.inj h
      exact .failed error stop sent hpc
    · cases h
  | responded response invalid =>
    simp only [step] at h
    split at h
    · next sent hpc =>
      obtain rfl := Option.some.inj h
      exact moves_responded response invalid hpc
    · cases h
  | tool stop output late =>
    simp only [step] at h
    split at h
    · next t' hpc => exact moves_tool hpc h
    · cases h
  | results stop batch =>
    simp only [step] at h
    split at h
    · next t' hpc => exact moves_results hpc h
    · cases h
  | decide stop batch =>
    simp only [step] at h
    split at h
    · next t' hpc =>
      obtain rfl := Option.some.inj h
      exact moves_decide stop batch hpc
    · cases h
  | idled found stop batch =>
    simp only [step] at h
    split at h
    · next assistant hpc =>
      obtain rfl := Option.some.inj h
      exact moves_idled found stop batch hpc
    · cases h
  | abort =>
    simp only [step] at h
    split at h
    · cases h
    · cases h
    · next hended hpc =>
      obtain rfl := Option.some.inj h
      exact .aborted hended hpc

end Kyora.Conversation
