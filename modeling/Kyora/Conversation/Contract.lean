import Kyora.Conversation.Steps

/-! # The output contract

  An agent with an output schema completes with an answer the schema accepts,
  and only by a tool that commits one. Once an answer is accepted nothing else
  is executed, and the outcome carries that answer.
-/

namespace Kyora.Conversation

open Mailbox (Batch)

/-- Text of an answer for its reader. -/
def Answer.asText : Answer → String
  | .text s => s
  | .value raw => raw

/-- The body of the notice that reports the outcome to the parent. -/
def noticeBody (cfg : Config) (answer : Answer) : String :=
  truncate answer.asText cfg.limits.messageChars

/-- `SubmitResult::call` of a child with this schema. -/
def submitResult (cfg : Config) (schema : Json → Except String Unit) (input : Json) :
    ToolOutput :=
  match schema input with
  | .error error => .error ("result does not match the output schema: " ++ error)
  | .ok () =>
    let raw := cfg.print input
    if raw.length > cfg.limits.messageChars then
      .error ("result exceeds " ++ toString cfg.limits.messageChars ++
        " characters; submit a shorter one")
    else ⟨[.text "result submitted"], false, some (.value raw)⟩

/-! ### Accepting -/

/-- An accepted answer is the committed one. -/
theorem accept_same {cfg : Config} {answer accepted : Answer}
    (h : accept cfg answer = .ok accepted) : accepted = answer := by
  unfold accept at h
  split at h
  · exact (Except.ok.inj h).symm
  · split at h
    · cases h
    · split at h
      · cases h
      · split at h
        · cases h
        · split at h
          · cases h
          · exact (Except.ok.inj h).symm

/-- What an answer that meets the contract looks like. -/
structure Meets (cfg : Config) (schema : Json → Except String Unit) (answer : Answer) : Prop where
  value : ∃ raw v, answer = .value raw ∧ cfg.parse raw = .ok v ∧ schema v = .ok () ∧
    raw.length ≤ cfg.limits.messageChars
  /-- The notice carries it whole. -/
  notice : noticeBody cfg answer = answer.asText

theorem accept_meets {cfg : Config} {schema : Json → Except String Unit} {answer : Answer}
    (houtput : cfg.output = some schema) (h : accept cfg answer = .ok answer) :
    Meets cfg schema answer := by
  unfold accept at h
  rw [houtput] at h
  simp only at h
  split at h
  · cases h
  · next raw =>
    split at h
    · cases h
    · next v hparse =>
      split at h
      · cases h
      · next hschema =>
        split at h
        · cases h
        · next hfits =>
          have hlength : raw.length ≤ cfg.limits.messageChars := Nat.le_of_not_lt hfits
          refine ⟨⟨raw, v, rfl, hparse, hschema, hlength⟩, ?_⟩
          -- What fits is not cut.
          show truncate raw cfg.limits.messageChars = raw
          unfold truncate
          rw [if_pos hlength]

/-- The checks of `submit_result` agree with those of the loop, where printing
    and parsing a value are inverse. -/
theorem submitResult_accepted {cfg : Config} {schema : Json → Except String Unit}
    (houtput : cfg.output = some schema) {input : Json} {answer : Answer}
    (hround : cfg.parse (cfg.print input) = .ok input)
    (h : (submitResult cfg schema input).finalAnswer = some answer) :
    accept cfg answer = .ok answer := by
  unfold submitResult at h
  split at h
  · cases h
  · next hschema =>
    simp only at h
    split at h
    · cases h
    · next hfits =>
      obtain rfl := Option.some.inj h
      unfold accept
      rw [houtput]
      simp only [hround, hschema, if_neg hfits]

/-! ### Tools that start -/

/-- The tool use is executed rather than answered by the loop itself. -/
def starts (cfg : Config) (t : Turn) (use : ToolUse) (stop : Option Stop) : Bool :=
  (t.invalid.lookup use.id).isNone && t.stopReason == .toolUse && t.finalAnswer.isNone &&
    stop.isNone && (cfg.tools.validate use.name use.input).isOk

/-- What is not executed is an error without an answer, whatever a tool would
    have returned. -/
theorem toolOutput_cases {cfg : Config} {t : Turn} {use : ToolUse} {stop : Option Stop}
    {output result : ToolOutput} {whole : Bool}
    (h : toolOutput cfg t use stop output = some (result, whole)) :
    (starts cfg t use stop = true ∧ result = output) ∨
    (starts cfg t use stop = false ∧ result.finalAnswer = none ∧
      ∀ output', toolOutput cfg t use stop output' = some (result, whole)) := by
  unfold toolOutput at h
  unfold starts toolOutput
  split at h
  · next raw hraw =>
    obtain ⟨rfl, rfl⟩ := Prod.mk.inj (Option.some.inj h)
    exact Or.inr ⟨by simp [hraw], rfl, fun _ => by simp⟩
  · next hvalid =>
    split at h
    · next hstop =>
      obtain ⟨rfl, rfl⟩ := Prod.mk.inj (Option.some.inj h)
      exact Or.inr ⟨by simp [hstop], rfl, fun _ => by simp [hstop]⟩
    · next hstop =>
      split at h
      · next hfinal =>
        obtain ⟨rfl, rfl⟩ := Prod.mk.inj (Option.some.inj h)
        have hnone : t.finalAnswer.isNone = false := by simpa using hfinal
        exact Or.inr ⟨by simp [hnone], rfl, fun _ => by simp [hstop, hfinal]⟩
      · next hfinal =>
        split at h
        · next hcancel =>
          obtain ⟨rfl, rfl⟩ := Prod.mk.inj (Option.some.inj h)
          have hnone : stop.isNone = false := by simpa using hcancel
          exact Or.inr ⟨by simp [hnone], rfl,
            fun _ => by simp [hstop, hfinal, hcancel]⟩
        · next hcancel =>
          split at h
          · next error herror =>
            obtain ⟨rfl, rfl⟩ := Prod.mk.inj (Option.some.inj h)
            exact Or.inr ⟨by simp [herror, Except.isOk, Except.toBool], rfl,
              fun _ => by simp [hstop, hfinal, hcancel]⟩
          · next hok =>
            obtain ⟨tool, -, heq⟩ := Option.map_eq_some_iff.mp h
            obtain ⟨rfl, -⟩ := Prod.mk.inj heq
            refine Or.inl ⟨?_, rfl⟩
            have hnone : t.finalAnswer.isNone = true := by simpa using hfinal
            have hgo : stop.isNone = true := by simpa using hcancel
            have hreason : t.stopReason = .toolUse := by simpa using hstop
            simp [hvalid, hreason, hnone, hgo, hok, Except.isOk, Except.toBool]

theorem starts_eq_true {cfg : Config} {t : Turn} {use : ToolUse} {stop : Option Stop}
    (h : starts cfg t use stop = true) :
    t.stopReason = .toolUse ∧ t.finalAnswer = none ∧ stop = none := by
  unfold starts at h
  simp only [Bool.and_eq_true, beq_iff_eq, Option.isNone_iff_eq_none] at h
  exact ⟨h.1.1.1.2, h.1.1.2, h.1.2⟩

/-- An answer is accepted where none was, or stays. -/
theorem commit_cases {cfg : Config} {t : Turn} {late : Option Stop} {result : ToolOutput}
    {answer : Answer} (h : (commit cfg t late result).2 = some answer) :
    t.finalAnswer = some answer ∨
    (t.finalAnswer = none ∧ late = none ∧ result.finalAnswer = some answer ∧
      accept cfg answer = .ok answer) := by
  unfold commit at h
  split at h
  · next committed hnone hsome =>
    simp only at h
    split at h
    · next accepted haccepted =>
      right
      obtain rfl := Option.some.inj h
      split at haccepted
      · cases haccepted
      · obtain rfl := accept_same haccepted
        exact ⟨hnone, rfl, hsome, haccepted⟩
    · cases h
  · exact Or.inl h

/-- An answer that was accepted stays. -/
theorem commit_kept {cfg : Config} {t : Turn} {late : Option Stop} {result : ToolOutput}
    {answer : Answer} (h : t.finalAnswer = some answer) :
    (commit cfg t late result).2 = some answer := by
  unfold commit
  split
  · next hnone _ =>
    rw [h] at hnone
    cases hnone
  · exact h

/-! ### Runs -/

/-- The step from `s` to `t` accepts an answer. -/
def Accepts (s t : State) (answer : Answer) : Prop :=
  ∃ u v, s.pc = .tools u ∧ u.finalAnswer = none ∧ t.pc = .tools v ∧ v.finalAnswer = some answer

/-- The step with label `l` executes a tool. -/
def Executes (cfg : Config) (s : State) (l : Label) : Prop :=
  ∃ t use pending stop output late, s.pc = .tools t ∧ t.pending = use :: pending ∧
    l = .tool stop output late ∧ starts cfg t use stop = true

/-- An answer was accepted in this turn, or the agent has ended with it. -/
def Decided (answer : Answer) (s : State) : Prop :=
  match s.pc with
  | .tools t | .deciding t => t.finalAnswer = some answer
  | .ended status => status = .completed ∧ s.answer = answer
  | .aborted => True
  | _ => False

/-- Within a turn the answer is the one of the turn. -/
theorem decided_turn {answer : Answer} {s : State} {u : Turn}
    (hpc : s.pc = .tools u ∨ s.pc = .deciding u) :
    Decided answer s ↔ u.finalAnswer = some answer := by
  unfold Decided
  rcases hpc with hpc | hpc <;> rw [hpc]

/-- What was accepted met the contract, in a turn that asked for tools. -/
def Accepted (cfg : Config) (s : State) : Prop :=
  match s.pc with
  | .tools t | .deciding t => ∀ answer, t.finalAnswer = some answer →
    accept cfg answer = .ok answer ∧ t.stopReason = .toolUse
  | _ => True

/-- Completion with a contract only follows an accepted answer. -/
theorem Moves.completes {cfg : Config} {s t : State} {l : Label} (hmove : Moves cfg s l t)
    (houtput : cfg.output.isSome = true) (ht : t.pc = .ended .completed) :
    ∃ u, s.pc = .deciding u ∧ u.finalAnswer = some t.answer := by
  cases hmove with
  | completed u value stop batch hpc hanswer => exact ⟨u, hpc, hanswer⟩
  | failed error stop sent hpc =>
    -- No failed request completes a node.
    have hstatus : statusFor stop error = .completed := Pc.ended.inj ht
    unfold statusFor at hstatus
    split at hstatus <;> try cases hstatus
    cases stop <;> cases hstatus
  | stopped stop hpc | overtaken u stop batch hpc hanswer | idleStopped assistant stop batch hpc =>
    have hstatus : stop.status = .completed := Pc.ended.inj ht
    cases stop <;> cases hstatus
  | outOfTurns u batch hpc hanswer hstop hturns =>
    have hstatus := Pc.ended.inj ht
    rw [if_pos houtput] at hstatus
    cases hstatus
  | gaveUp u batch status hpc hanswer hstatus =>
    obtain rfl : status = .completed := Pc.ended.inj ht
    rcases hstatus with h | h | h <;> cases h
  | idleCompleted assistant batch hpc hnone =>
    rw [hnone] at houtput
    cases houtput
  | _ => cases ht

theorem Moves.accepted_of {cfg : Config} {s t : State} {l : Label} (h : Accepted cfg s)
    (hmove : Moves cfg s l t) : Accepted cfg t := by
  unfold Accepted at h
  cases hmove with
  | recorded sent response invalid hpc hretry =>
    intro answer hanswer
    cases hanswer
  | answered u use pending stop output late result whole hpc hpending houtput =>
    rw [hpc] at h
    intro answer hanswer
    rcases commit_cases hanswer with hold | ⟨-, -, hnew, haccepted⟩
    · exact h answer hold
    · refine ⟨haccepted, ?_⟩
      -- Only a tool that was executed commits an answer.
      rcases toolOutput_cases houtput with ⟨hstarts, -⟩ | ⟨-, hnone, -⟩
      · exact (starts_eq_true hstarts).1
      · rw [hnone] at hnew
        cases hnew
  | resultless u stop batch hpc hpending hresults =>
    rw [hpc] at h
    exact h
  | resulted u stop batch hpc hpending hresults =>
    rw [hpc] at h
    exact h
  | _ => exact trivial

theorem accepted_of_reachable {cfg : Config} {s : State} (h : (conversation cfg).Reachable s) :
    Accepted cfg s :=
  LTS.System.invariant (show Accepted cfg (conversation cfg).init from trivial)
    (fun _ _ _ hs _ hstep => (step_moves hstep).accepted_of hs) s h

/-- The answer of a completed agent was accepted. -/
theorem accept_of_completed {cfg : Config} (houtput : cfg.output.isSome = true) {s : State}
    (h : (conversation cfg).Reachable s) (hpc : s.pc = .ended .completed) :
    accept cfg s.answer = .ok s.answer := by
  refine LTS.System.invariant_with
    (P := fun u => u.pc = .ended .completed → accept cfg u.answer = .ok u.answer)
    (fun _ hs => accepted_of_reachable hs) (fun hinit => by cases hinit) ?_ s h hpc
  intro u l v hu _ _ _ hstep hv
  obtain ⟨t, ht, hanswer⟩ := (step_moves hstep).completes houtput hv
  unfold Accepted at hu
  rw [ht] at hu
  exact (hu v.answer hanswer).1

/-- Once an answer is accepted the turn goes on to the end with it, and no
    request follows. -/
theorem Moves.decided {cfg : Config} {s t : State} {l : Label} {answer : Answer}
    (h : Decided answer s) (hmove : Moves cfg s l t) :
    Decided answer t ∧ t.requests = s.requests := by
  -- A turn without an answer is not decided.
  have hnone : ∀ {u : Turn}, s.pc = .deciding u → u.finalAnswer ≠ none := by
    intro u hpc hanswer
    have hsome := (decided_turn (Or.inr hpc)).mp h
    rw [hanswer] at hsome
    cases hsome
  cases hmove with
  | answered u use pending stop output late result whole hpc hpending houtput =>
    have hkept := (decided_turn (Or.inl hpc)).mp h
    exact ⟨commit_kept hkept, rfl⟩
  | resultless u stop batch hpc hpending hresults =>
    exact ⟨(decided_turn (Or.inl hpc)).mp h, rfl⟩
  | resulted u stop batch hpc hpending hresults =>
    exact ⟨(decided_turn (Or.inl hpc)).mp h, rfl⟩
  | completed u value stop batch hpc hanswer =>
    have hsome := (decided_turn (Or.inr hpc)).mp h
    rw [hanswer] at hsome
    exact ⟨⟨rfl, Option.some.inj hsome⟩, rfl⟩
  | overtaken u stop batch hpc hanswer => exact absurd hanswer (hnone hpc)
  | wentOn u batch hpc hanswer hstop => exact absurd hanswer (hnone hpc)
  | outOfTurns u batch hpc hanswer hstop hturns => exact absurd hanswer (hnone hpc)
  | waiting u batch hpc hanswer hstop hturns => exact absurd hanswer (hnone hpc)
  | continued u batch hpc hanswer hstop hresults => exact absurd hanswer (hnone hpc)
  | gaveUp u batch status hpc hanswer hstatus => exact absurd hanswer (hnone hpc)
  | aborted hended hpc => exact ⟨trivial, rfl⟩
  | opened batch hpc | stopped stop hpc | capped hpc hturns | requested hpc hturns
  | failed error stop sent hpc | again sent response invalid hpc hretry
  | recorded sent response invalid hpc hretry | woken assistant found stop batch hpc
  | idleStopped assistant stop batch hpc | idleCompleted assistant batch hpc houtput
  | reminded assistant batch hpc houtput hfirst
  | unsubmitted assistant answer' batch hpc houtput hagain =>
    -- Nothing is decided outside a turn.
    unfold Decided at h
    rw [hpc] at h
    exact h.elim

/-- With an accepted answer no tool is executed. -/
theorem Decided.executes {cfg : Config} {s : State} {answer : Answer} (h : Decided answer s)
    {l : Label} : ¬ Executes cfg s l := by
  rintro ⟨t, use, pending, stop, output, late, hpc, -, -, hstarts⟩
  have hsome := (decided_turn (Or.inl hpc)).mp h
  rw [(starts_eq_true hstarts).2.1] at hsome
  cases hsome

theorem decided_of_run {cfg : Config} {s t : State} {answer : Answer} (h : Decided answer s)
    {ls : List Label} (hrun : (conversation cfg).run s ls = some t) :
    Decided answer t ∧ t.requests = s.requests := by
  have hstep : ∀ u l v, (Decided answer u ∧ u.requests = s.requests) →
      (conversation cfg).step u l = some v → Decided answer v ∧ v.requests = s.requests := by
    intro u l v hu hnext
    obtain ⟨hv, hsame⟩ := (step_moves hnext).decided hu.1
    exact ⟨hv, hsame.trans hu.2⟩
  exact (conversation cfg).run_invariant hstep ⟨h, rfl⟩ hrun

/-- The turn of an accepting step is decided from then on. -/
theorem Accepts.decided {s t : State} {answer : Answer} (h : Accepts s t answer) :
    Decided answer t := by
  obtain ⟨u, v, -, -, hpc, hanswer⟩ := h
  exact (decided_turn (Or.inl hpc)).mpr hanswer

/-- An answer is decided on by a step that accepts it. -/
theorem Moves.accepts {cfg : Config} {s t : State} {l : Label} (hmove : Moves cfg s l t)
    (houtput : cfg.output.isSome = true) {answer : Answer} (ht : Decided answer t)
    (hlive : t.pc ≠ .aborted) : Decided answer s ∨ Accepts s t answer := by
  have hcompletes := hmove.completes houtput
  by_cases hended : t.pc = .ended .completed
  · obtain ⟨u, hpc, hanswer⟩ := hcompletes hended
    unfold Decided at ht
    rw [hended] at ht
    rw [ht.2] at hanswer
    exact Or.inl ((decided_turn (Or.inr hpc)).mpr hanswer)
  · -- A turn is decided, and it was at work before.
    cases hmove with
    | answered u use pending stop output late result whole hpc hpending hresult =>
      rcases commit_cases ht with hold | ⟨hnone, -⟩
      · exact Or.inl ((decided_turn (Or.inl hpc)).mpr hold)
      · exact Or.inr ⟨u, _, hpc, hnone, rfl, ht⟩
    | resultless u stop batch hpc hpending hresults =>
      exact Or.inl ((decided_turn (Or.inl hpc)).mpr ht)
    | resulted u stop batch hpc hpending hresults =>
      exact Or.inl ((decided_turn (Or.inl hpc)).mpr ht)
    | recorded sent response invalid hpc hretry => cases ht
    | aborted hended hpc => exact absurd rfl hlive
    | opened | requested | again | wentOn | waiting | continued | woken | reminded =>
      exact ht.elim
    | _ => exact absurd (congrArg Pc.ended ht.1) hended

/-! ### The contract -/

/-- What every run of an agent with this output schema satisfies, up to the
    state `s` it has reached. -/
structure Contract (cfg : Config) (schema : Json → Except String Unit) (ls : List Label)
    (s : State) : Prop where
  /-- A completed agent answers as the schema asks. -/
  meets : s.pc = .ended .completed → Meets cfg schema s.answer
  /-- Its answer was accepted in some step, and it is the first one. -/
  first : s.pc = .ended .completed → ∃ ls₁ l ls₂ s₁ s₂, ls = ls₁ ++ l :: ls₂ ∧
    (conversation cfg).run (conversation cfg).init ls₁ = some s₁ ∧
    (conversation cfg).step s₁ l = some s₂ ∧ (conversation cfg).run s₂ ls₂ = some s ∧
    Accepts s₁ s₂ s.answer
  /-- Whenever an answer is accepted, the agent can only end with it, and no
      tool is executed and no request sent any more. -/
  last : ∀ {l : Label} {t u : State} {answer : Answer} {ls' : List Label},
    (conversation cfg).step s l = some t → Accepts s t answer →
    (conversation cfg).run t ls' = some u →
    (∀ status, u.pc = .ended status → status = .completed ∧ u.answer = answer) ∧
    (∀ l', ¬ Executes cfg u l') ∧ u.requests = t.requests
  /-- It never completes at the end of a turn without an accepted answer. -/
  endTurn : ∀ {l : Label} {t : State}, (conversation cfg).step s l = some t →
    t.pc = .ended .completed →
    ∃ u, s.pc = .deciding u ∧ u.finalAnswer = some t.answer ∧ u.stopReason = .toolUse

theorem output_contract (cfg : Config) {schema : Json → Except String Unit}
    (houtput : cfg.output = some schema) {ls : List Label} {s : State}
    (hrun : (conversation cfg).run (conversation cfg).init ls = some s) :
    Contract cfg schema ls s := by
  have hsome : cfg.output.isSome = true := by rw [houtput]; rfl
  have hreach : (conversation cfg).Reachable s := LTS.System.reachable_of_run hrun
  refine ⟨?_, ?_, ?_, ?_⟩
  · intro hpc
    exact accept_meets houtput (accept_of_completed hsome hreach hpc)
  · intro hpc
    have hdecided : Decided s.answer s := by
      unfold Decided
      rw [hpc]
      exact ⟨rfl, rfl⟩
    -- Nothing is decided at the start, so some step of the run decided.
    have hinit : ¬ Decided s.answer (conversation cfg).init := fun hnever => hnever
    obtain ⟨ls₁, l, ls₂, s₁, s₂, hsplit, hrun₁, hstep, hrun₂, hbefore, hafter⟩ :=
      (conversation cfg).run_crossing (P := fun u => ¬ Decided s.answer u)
        hinit (fun hnot => hnot hdecided) hrun
    have hafter := Classical.not_not.mp hafter
    refine ⟨ls₁, l, ls₂, s₁, s₂, hsplit, hrun₁, hstep, hrun₂, ?_⟩
    have hlive : s₂.pc ≠ .aborted := by
      intro haborted
      have hstuck : ∀ u l v, u.pc = Pc.aborted → (conversation cfg).step u l = some v →
          v.pc = .aborted := by
        intro u l v hu hnext
        exfalso
        cases step_moves hnext <;> simp_all
      have hs := (conversation cfg).run_invariant hstuck haborted hrun₂
      rw [hpc] at hs
      cases hs
    rcases (step_moves hstep).accepts hsome hafter hlive with hold | haccepts
    · exact absurd hold hbefore
    · exact haccepts
  · intro l t u answer ls' hstep haccepts hrun'
    obtain ⟨hdecided, hrequests⟩ := decided_of_run haccepts.decided hrun'
    refine ⟨?_, fun l' => hdecided.executes, hrequests⟩
    intro status hpc
    unfold Decided at hdecided
    rw [hpc] at hdecided
    exact hdecided
  · intro l t hstep hpc
    obtain ⟨u, hu, hanswer⟩ := (step_moves hstep).completes hsome hpc
    have haccepted := accepted_of_reachable hreach
    unfold Accepted at haccepted
    rw [hu] at haccepted
    exact ⟨u, hu, hanswer, (haccepted t.answer hanswer).2⟩

/-- A child whose schema accepts every value that is not null, with a tool that
    commits an answer. -/
def contractConfig : Config where
  limits := .default
  model := "model"
  system := "system"
  task := "task"
  tools := ⟨fun name => if name = "submit_result" then some ⟨fun _ => .ok (), true⟩ else none⟩
  specs := []
  options := ⟨none, none, false, none⟩
  maxTurns := 5
  output := some fun
    | .null => .error "null"
    | _ => .ok ()
  names := fun _ => ""
  print := fun _ => ""
  parse := fun raw => if raw = "1" then .ok (.integer 1) else .error "not JSON"

/-- Text is refused, then a value is accepted, and the next call is skipped. -/
def submittedLabels : List Label :=
  [.opened ⟨[], 0, 0⟩, .request none,
    .responded ⟨[.toolUse "a" "submit_result" .null, .toolUse "b" "submit_result" .null,
      .toolUse "c" "submit_result" .null], .toolUse, 0⟩ [],
    .tool none ⟨[], false, some (.text "done")⟩ none,
    .tool none ⟨[], false, some (.value "1")⟩ none,
    .tool none ⟨[], false, some (.value "2")⟩ none,
    .results none ⟨[], 0, 0⟩, .decide (some .cancelled) ⟨[], 0, 0⟩]

theorem output_contract_submitted : ∃ s schema,
    contractConfig.output = some schema ∧
    (conversation contractConfig).run (conversation contractConfig).init submittedLabels =
      some s ∧
    s.answer = .value "1" ∧ Contract contractConfig schema submittedLabels s := by
  have hrun : ((conversation contractConfig).run (conversation contractConfig).init
      submittedLabels).map (fun s => s.answer) = some (.value "1") := by decide +kernel
  obtain ⟨s, hs, hanswer⟩ := Option.map_eq_some_iff.mp hrun
  exact ⟨s, _, rfl, hs, hanswer, output_contract contractConfig rfl hs⟩

end Kyora.Conversation
