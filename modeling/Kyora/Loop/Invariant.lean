import Kyora.Loop.Steps

/-! # What the loop keeps

  The flags only ever get set, so whatever the loop does after it saw the node
  stopped, it sees the node stopped again. The invariant says where the loop
  can be then, and that a quiet mailbox stays as it is until the loop decides.
-/

namespace Kyora.Loop

open Conversation (Stop Turn ToolOutput Answer CallError Decided)
open Mailbox (Batch)

/-! ### Steps of the conversation -/

/-- Only a request leads to a model call. -/
theorem request_of_requesting {cfg : Conversation.Config} {s t : Conversation.State}
    {l : Conversation.Label} {n : Nat} (h : Conversation.step cfg s l = some t)
    (ht : t.pc = .requesting n) : l = .request none := by
  cases Conversation.step_moves h with
  | requested hpc hturns => rfl
  | _ => cases ht

/-- An answer appears in a turn when a tool's answer is accepted. -/
theorem answer_step {cfg : Conversation.Config} {s t : Conversation.State}
    {l : Conversation.Label} (h : Conversation.step cfg s l = some t)
    (hs : answerOf s.pc = none) : answerOf t.pc = none ∨
      ∃ stop output answer, l = .tool stop output none ∧ answerOf t.pc = some answer ∧
        output.finalAnswer = some answer ∧
        Conversation.accept cfg answer = .ok answer := by
  cases Conversation.step_moves h with
  | answered u use pending stop output late result whole hpc hpending houtput =>
    rw [hpc] at hs
    cases hanswer : (Conversation.commit cfg u late result).2 with
    | none => exact Or.inl rfl
    | some answer =>
      right
      rcases Conversation.commit_cases hanswer with hold | ⟨-, rfl, hnew, haccept⟩
      · rw [show u.finalAnswer = none from hs] at hold
        cases hold
      · rcases Conversation.toolOutput_cases houtput with ⟨-, rfl⟩ | ⟨-, hnone, -⟩
        · exact ⟨stop, result, answer, rfl, rfl, hnew, haccept⟩
        · rw [hnone] at hnew
          cases hnew
  | resultless u stop batch hpc hpending hresults =>
    rw [hpc] at hs
    exact Or.inl hs
  | resulted u stop batch hpc hpending hresults =>
    rw [hpc] at hs
    exact Or.inl hs
  | _ => exact Or.inl rfl

/-- The ways a conversation ends, by what the loop read there. -/
inductive Ends (cfg : Conversation.Config) (s : Conversation.State) :
    Conversation.Label → Status → Prop where
  | stopped (stop : Stop) : Ends cfg s (.request (some stop)) stop.status
  | capped : Ends cfg s (.request none) .maxTurns
  | failed (error : CallError) (stop : Stop) :
      Ends cfg s (.failed error stop) (Conversation.statusFor stop error)
  | completed (stop : Option Stop) (batch : Batch) (hanswer : answerOf s.pc ≠ none) :
      Ends cfg s (.decide stop batch) .completed
  | overtaken (stop : Stop) (batch : Batch) : Ends cfg s (.decide (some stop) batch) stop.status
  | wentOut (batch : Batch) (status : Status)
      (hturns : status = .completed → cfg.maxTurns ≤ s.turns) :
      Ends cfg s (.decide none batch) status
  | idleStopped (stop : Stop) (batch : Batch) :
      Ends cfg s (.idled none (some stop) batch) stop.status
  | idleEnded (batch : Batch) (status : Status)
      (houtput : status = .completed → cfg.output = none) :
      Ends cfg s (.idled none none batch) status

theorem ends_of_step {cfg : Conversation.Config} {s t : Conversation.State}
    {l : Conversation.Label} {status : Status} (h : Conversation.step cfg s l = some t)
    (ht : t.pc = .ended status) : Ends cfg s l status := by
  cases Conversation.step_moves h with
  | stopped stop hpc =>
    obtain rfl := Conversation.Pc.ended.inj ht
    exact .stopped stop
  | capped hpc hturns =>
    obtain rfl := Conversation.Pc.ended.inj ht
    exact .capped
  | failed error stop sent hpc =>
    obtain rfl := Conversation.Pc.ended.inj ht
    exact .failed error stop
  | completed u value stop batch hpc hanswer =>
    obtain rfl := Conversation.Pc.ended.inj ht
    refine .completed stop batch ?_
    rw [hpc, show answerOf (.deciding u) = some value from hanswer]
    exact Option.some_ne_none value
  | overtaken u stop batch hpc hanswer =>
    obtain rfl := Conversation.Pc.ended.inj ht
    exact .overtaken stop batch
  | outOfTurns u batch hpc hanswer hstop hturns => exact .wentOut batch status fun _ => hturns
  | gaveUp u batch status' hpc hanswer hstatus =>
    obtain rfl := Conversation.Pc.ended.inj ht
    refine .wentOut batch _ fun hcompleted => ?_
    rcases hstatus with heq | heq | heq <;> cases heq.symm.trans hcompleted
  | idleStopped assistant stop batch hpc =>
    obtain rfl := Conversation.Pc.ended.inj ht
    exact .idleStopped stop batch
  | idleCompleted assistant batch hpc houtput => exact .idleEnded batch status fun _ => houtput
  | unsubmitted assistant answer batch hpc houtput hagain =>
    obtain rfl := Conversation.Pc.ended.inj ht
    exact .idleEnded batch .failed fun hcompleted => by cases hcompleted
  | _ => cases ht

/-- A node ends cancelled or timed out. -/
def Stopped (status : Status) : Prop := status = .cancelled ∨ status = .timeout

theorem stopped_status (stop : Stop) : Stopped stop.status := by
  cases stop with
  | timeout => exact Or.inr rfl
  | cancelled => exact Or.inl rfl

/-! ### The components -/

theorem delivery_cases {cfg : Config} {s : State} {wanted : Bool} {r : Inbox.State × Batch}
    (h : s.delivery cfg wanted = some r) :
    r.1 = s.inbox ∨ Inbox.step cfg.inbox s.inbox (.take .all) = some r.1 := by
  unfold State.delivery at h
  cases wanted with
  | false =>
    obtain rfl := Option.some.inj h
    exact Or.inl rfl
  | true =>
    right
    obtain ⟨⟨box, batch⟩, htake, rfl⟩ := Option.map_eq_some_iff.mp h
    simp only [Inbox.step, Option.map_eq_some_iff]
    exact ⟨(box, batch), htake, rfl⟩

/-- An act is at most one step of each component. -/
theorem components_step {cfg : Config} {s t : State} {a : Act} (h : Runs cfg s a t) :
    (t.conv = s.conv ∨ ∃ l, Conversation.step cfg.agent s.conv l = some t.conv) ∧
    (t.inbox = s.inbox ∨ ∃ l, Inbox.step cfg.inbox s.inbox l = some t.inbox) ∧
    (t.attempts = s.attempts ∨
      ∃ l, Attempts.step cfg.attempts s.attempts l = some t.attempts) := by
  have hdelivery : ∀ {wanted : Bool} {r : Inbox.State × Batch},
      s.delivery cfg wanted = some r →
      r.1 = s.inbox ∨ ∃ l, Inbox.step cfg.inbox s.inbox l = some r.1 := by
    intro wanted r hbatch
    rcases delivery_cases hbatch with hsame | hstep
    · exact Or.inl hsame
    · exact Or.inr ⟨_, hstep⟩
  cases h with
  | flagged f hset => exact ⟨Or.inl rfl, Or.inl rfl, Or.inl rfl⟩
  | mail l i hwho hstep => exact ⟨Or.inl rfl, Or.inr ⟨l, hstep⟩, Or.inl rfl⟩
  | elsewhere l attempts hother hstep => exact ⟨Or.inl rfl, Or.inl rfl, Or.inr ⟨l, hstep⟩⟩
  | looked k c l attempts hdoing hl hc hlooks hobeys hstep =>
    exact ⟨Or.inl (look_conv s true), Or.inl (look_inbox s true), Or.inr ⟨l, hstep⟩⟩
  | callCancelled k c l attempts hdoing hl hc hlooks hcancelled hnoticed hstep =>
    exact ⟨Or.inl rfl, Or.inl rfl, Or.inr ⟨l, hstep⟩⟩
  | called k c l attempts hdoing hl hc hlooks hcancelled hstep =>
    exact ⟨Or.inl rfl, Or.inl rfl, Or.inr ⟨l, hstep⟩⟩
  | streamCancelled k c hdoing hc hpc hnoticed =>
    exact ⟨Or.inl rfl, Or.inl rfl, Or.inl rfl⟩
  | opened r conv hpc hbatch hstep =>
    exact ⟨Or.inr ⟨_, hstep⟩, hdelivery hbatch, Or.inl rfl⟩
  | unrequested stop conv hlook hpc hstep hended =>
    exact ⟨Or.inr ⟨_, hstep⟩, Or.inl (look_inbox s true), Or.inl (look_attempts s true)⟩
  | requested n stop conv attempts hlook hpc hstep hconv hcall =>
    exact ⟨Or.inr ⟨_, hstep⟩, Or.inr ⟨.newTurn, rfl⟩, Or.inr ⟨_, hcall⟩⟩
  | started u use pending hpc hdoing hpending hstarts =>
    exact ⟨Or.inl (look_conv s _), Or.inl (look_inbox s _), Or.inl (look_attempts s _)⟩
  | unstarted u use pending stop conv hpc hpending hlook hstarts hstep =>
    exact ⟨Or.inr ⟨_, hstep⟩, Or.inl (look_inbox s _), Or.inl (look_attempts s _)⟩
  | toolEnded output late conv hdoing hlook hstep =>
    exact ⟨Or.inr ⟨_, hstep⟩, Or.inl (look_inbox s _), Or.inl (look_attempts s _)⟩
  | resulted u asked wanted r conv hpc hbatch hstep =>
    exact ⟨Or.inr ⟨_, hstep⟩, hdelivery hbatch, Or.inl (look_attempts s _)⟩
  | decided u wanted r conv hpc hbatch hstep =>
    exact ⟨Or.inr ⟨_, hstep⟩, hdelivery hbatch, Or.inl (look_attempts s _)⟩
  | delivered m box batch hpc hidle =>
    refine ⟨Or.inl rfl, Or.inr ⟨.idle cfg.agent.output.isNone, ?_⟩, Or.inl rfl⟩
    simp only [Inbox.step, Option.map_eq_some_iff]
    exact ⟨(box, .deliver batch), hidle, rfl⟩
  | waited m hpc => exact ⟨Or.inl rfl, Or.inl rfl, Or.inl rfl⟩
  | quieted m hpc hqueue hawait hres =>
    refine ⟨Or.inl rfl, Or.inr ⟨.idle cfg.agent.output.isNone, ?_⟩, Or.inl rfl⟩
    simp only [Inbox.step, Mailbox.idle, hqueue, hawait, hres, List.isEmpty_nil, Bool.not_true,
      Bool.false_eq_true, if_false, and_self, if_true, Option.map_some]
  | idleCancelled hdoing hnoticed => exact ⟨Or.inl rfl, Or.inl rfl, Or.inl rfl⟩
  | idled wanted r conv hdoing hwanted hbatch hstep =>
    exact ⟨Or.inr ⟨_, hstep⟩, hdelivery hbatch, Or.inl (look_attempts s _)⟩
  | answered response invalid conv hexit hstep =>
    exact ⟨Or.inr ⟨_, hstep⟩, Or.inl rfl, Or.inl rfl⟩
  | failed exit error conv hexit herror hstep =>
    exact ⟨Or.inr ⟨_, hstep⟩, Or.inl rfl, Or.inl rfl⟩
  | overtaken conv hdoing hnoticed hstep =>
    exact ⟨Or.inr ⟨_, hstep⟩, Or.inl rfl, Or.inl rfl⟩
  | woken batch conv hdoing hstep => exact ⟨Or.inr ⟨_, hstep⟩, Or.inl rfl, Or.inl rfl⟩
  | aborted conv hstep => exact ⟨Or.inr ⟨_, hstep⟩, Or.inl rfl, Or.inl rfl⟩

/-- The conversation of a loop is a conversation. -/
theorem conversation_of_loop {cfg : Config} {s : State} (h : (loop cfg).Reachable s) :
    (Conversation.conversation cfg.agent).Reachable s.conv :=
  LTS.System.reachable_map State.conv rfl
    (fun _ _ _ hstep => (components_step (runs_of_step hstep)).1) s h

/-- What arrives in a loop's mailbox arrives as in any inbox. -/
theorem inbox_of_loop {cfg : Config} {s : State} (h : (loop cfg).Reachable s) :
    (Inbox.inbox cfg.inbox).Reachable s.inbox :=
  LTS.System.reachable_map State.inbox rfl
    (fun _ _ _ hstep => (components_step (runs_of_step hstep)).2.1) s h

/-- The model calls of a loop are among the attempts of the session. -/
theorem attempts_of_loop {cfg : Config} {s : State} (h : (loop cfg).Reachable s) :
    (Attempts.attempts cfg.attempts).Reachable s.attempts :=
  LTS.System.reachable_map State.attempts rfl
    (fun _ _ _ hstep => (components_step (runs_of_step hstep)).2.2) s h

/-! ### A quiet mailbox -/

/-- Nothing is queued, nobody is awaited and no send is in flight. -/
structure Quiet (i : Inbox.State) : Prop where
  queue : i.box.queue = []
  awaiting : i.box.awaiting = ∅
  reserved : i.box.reserved = 0

/-- Once closed, a quiet mailbox stays quiet whatever the other tasks do. -/
theorem quiet_step {cfg : Inbox.Config} {s t : Inbox.State} {l : Inbox.Label}
    (hreach : (Inbox.inbox cfg).Reachable s) (h : Inbox.step cfg s l = some t)
    (hl : byOthers l = true) (hs : Quiet s) (hclosed : s.box.closed = true) :
    Quiet t ∧ t.box.closed = true := by
  have hk := Inbox.kinds_of_reachable hreach
  have hn := Inbox.notes_of_reachable hreach
  have hnobody : ∀ c, c ∉ s.box.awaiting := by
    intro c hc
    rw [hs.awaiting] at hc
    exact Finset.notMem_empty c hc
  cases Inbox.fires_of_step h with
  | accepted e hplain hsender hopen hroom =>
    rw [hclosed] at hopen
    cases hopen
  | deliver e hmem hpost =>
    have hpos := (Inbox.post_plain (hk.sending e hmem) hpost).1
    rw [show _ = 0 from hs.reserved] at hpos
    cases hpos
  | notify c id o hkid hpost =>
    exact absurd ((hn.awaiting c).mpr (Or.inl ⟨_, hkid, rfl⟩)) (hnobody c)
  | conclude e hmem hpost =>
    exact absurd ((hn.awaiting _).mpr (Or.inr (List.mem_map_of_mem hmem))) (hnobody _)
  | expect c hkid => cases hl
  | staged o id hout hopen hawait hnew => cases hl
  | take pick htake => cases hl
  | idleDeliver shut hqueue htake => cases hl
  | idleDone shut hqueue hawait hres => cases hl
  | idleWait shut hqueue hmore => cases hl
  | close => cases hl
  | charged o hfit => cases hl
  | uncharged o => cases hl
  | saw c => cases hl
  | newTurn => cases hl
  | _ => exact ⟨⟨hs.queue, hs.awaiting, hs.reserved⟩, hclosed⟩

/-! ### The invariant -/

/-- Where the conversation, the calls and the mailbox are meanwhile. -/
def Doing.Sound (cfg : Config) (s : State) : Doing → Prop
  | .thinking => ∀ n, s.conv.pc ≠ .requesting n
  | .calling k => (∃ n, s.conv.pc = .requesting n) ∧
      ∃ c, s.attempts.calls[k]? = some c ∧ c.node = cfg.me ∧
        (s.seen = true → isLate c.pc = true)
  | .running => ∃ t use pending, s.conv.pc = .tools t ∧ t.pending = use :: pending ∧
      Conversation.starts cfg.agent t use none = true
  | .waiting | .found _ => ∃ m, s.conv.pc = .idling m
  | .quiet => (∃ m, s.conv.pc = .idling m) ∧
      (cfg.agent.output = none → Quiet s.inbox ∧ s.inbox.box.closed = true)
  | .noticed => (∃ m, s.conv.pc = .idling m) ∧ s.flags.must = true

structure State.Sound (cfg : Config) (s : State) : Prop where
  inbox : (Inbox.inbox cfg.inbox).Reachable s.inbox
  /-- What was seen still holds. -/
  watched : s.seen = true → s.flags.must = true
  decided : ∀ {answer}, s.accepted = some answer → Decided answer s.conv
  undecided : s.accepted = none → answerOf s.conv.pc = none
  doing : s.doing.Sound cfg s
  /-- A node that was seen stopped without an answer ends stopped. -/
  ended : s.seen = true → s.accepted = none →
    ∀ status, s.conv.pc = .ended status → Stopped status

/-- An act that leaves the conversation alone. -/
theorem State.Sound.keep {cfg : Config} {s t : State} (h : s.Sound cfg)
    (hconv : t.conv = s.conv) (haccepted : t.accepted = s.accepted)
    (hinbox : (Inbox.inbox cfg.inbox).Reachable t.inbox)
    (hwatched : t.seen = true → t.flags.must = true)
    (hseen : t.seen = true → s.seen = true ∨ ∀ status, s.conv.pc ≠ .ended status)
    (hdoing : t.doing.Sound cfg t) : t.Sound cfg := by
  refine ⟨hinbox, hwatched, ?_, ?_, hdoing, ?_⟩
  · rw [hconv, haccepted]
    exact h.decided
  · rw [hconv, haccepted]
    exact h.undecided
  · intro hs hnone status hpc
    rw [hconv] at hpc
    rw [haccepted] at hnone
    rcases hseen hs with hbefore | hlive
    · exact h.ended hbefore hnone status hpc
    · exact absurd hpc (hlive status)

/-- An act that goes on with the conversation and accepts nothing. -/
theorem State.Sound.conversed {cfg : Config} {s t : State} {l : Conversation.Label}
    (h : s.Sound cfg) (hstep : Conversation.step cfg.agent s.conv l = some t.conv)
    (haccepted : t.accepted = s.accepted)
    (hinbox : (Inbox.inbox cfg.inbox).Reachable t.inbox)
    (hwatched : t.seen = true → t.flags.must = true)
    (hnew : ∀ stop output answer, l = .tool stop output none →
      output.finalAnswer = some answer → s.accepted ≠ none)
    (hends : t.seen = true → s.accepted = none → ∀ status, t.conv.pc = .ended status →
      Ends cfg.agent s.conv l status → Stopped status)
    (hdoing : t.doing.Sound cfg t) : t.Sound cfg := by
  refine ⟨hinbox, hwatched, fun {answer} hanswer => ?_, fun hnone => ?_, hdoing, ?_⟩
  · rw [haccepted] at hanswer
    exact ((Conversation.step_moves hstep).decided (h.decided hanswer)).1
  · rw [haccepted] at hnone
    rcases answer_step hstep (h.undecided hnone) with
      hstill | ⟨stop, output, answer, hl, -, hfinal, -⟩
    · exact hstill
    · exact absurd hnone (hnew stop output answer hl hfinal)
  · intro hs hnone status hpc
    rw [haccepted] at hnone
    exact hends hs hnone status hpc (ends_of_step hstep hpc)

/-- Thinking goes on after every step that makes no request. -/
theorem sound_thinking {cfg : Config} {s t : State} {l : Conversation.Label}
    (hstep : Conversation.step cfg.agent s.conv l = some t.conv) (hl : l ≠ .request none) :
    Doing.Sound cfg t .thinking := by
  intro n hpc
  exact hl (request_of_requesting hstep hpc)

/-- After a look, what was seen holds. -/
theorem State.Sound.look {cfg : Config} {s : State} (h : s.Sound cfg) (asked : Bool)
    (hseen : (s.look asked).1.seen = true) : (s.look asked).1.flags.must = true := by
  rw [look_must]
  rcases must_of_look hseen with hbefore | hmust
  · exact h.watched hbefore
  · exact hmust

/-- A look that finds nothing finds a node that was not seen stopped. -/
theorem State.Sound.unseen {cfg : Config} {s : State} (h : s.Sound cfg)
    (hlook : (s.look true).2 = none) : (s.look true).1.seen ≠ true := by
  intro hseen
  have hmust := h.look true hseen
  rw [look_must, must_of_look_none hlook] at hmust
  cases hmust

/-- The call under way, after a step of it. -/
theorem State.Sound.call {cfg : Config} {s t : State} (h : s.Sound cfg) {k : Nat}
    {c c' : Attempts.Call} {l : Attempts.Label} (hdoing : s.doing = .calling k)
    (hl : l.callId = some k) (hc : s.attempts.calls[k]? = some c)
    (hstep : Attempts.step cfg.attempts s.attempts l = some t.attempts)
    (hconv : t.conv = s.conv) (hc' : t.attempts.calls[k]? = some c')
    (hlate : t.seen = true → isLate c'.pc = true) : Doing.Sound cfg t (.calling k) := by
  have hs := h.doing
  rw [hdoing] at hs
  obtain ⟨hpc, c₀, hc₀, hnode, -⟩ := hs
  rw [hc, Option.some.injEq] at hc₀
  subst hc₀
  obtain ⟨u, c₁, hmove, hc₁⟩ := call_own hstep hl hc
  rw [hc', Option.some.injEq] at hc₁
  subst hc₁
  rw [← hconv] at hpc
  exact ⟨hpc, c', hc', (moved_node hmove).trans hnode, hlate⟩

/-- A conversation with a model call under way has not ended. -/
theorem State.Sound.calling {cfg : Config} {s : State} (h : s.Sound cfg) {k : Nat}
    (hdoing : s.doing = .calling k) {status : Status} : s.conv.pc ≠ .ended status := by
  have hs := h.doing
  rw [hdoing] at hs
  obtain ⟨⟨n, hpc⟩, -⟩ := hs
  rw [hpc]
  exact fun hended => by cases hended

/-- The model call under way is late if the node was seen stopped. -/
theorem State.Sound.late {cfg : Config} {s : State} (h : s.Sound cfg) {k : Nat}
    {c : Attempts.Call} (hdoing : s.doing = .calling k)
    (hc : s.attempts.calls[k]? = some c) (hseen : s.seen = true) : isLate c.pc = true := by
  have hs := h.doing
  rw [hdoing] at hs
  obtain ⟨-, c', hc', -, hlate⟩ := hs
  rw [hc, Option.some.injEq] at hc'
  rw [hc']
  exact hlate hseen

/-- The status of a failed call of a node that was seen stopped. -/
theorem State.Sound.failed {cfg : Config} {s : State} (h : s.Sound cfg)
    {exit : Attempts.Exit} {error : CallError} (hexit : s.exit = some exit)
    (herror : callError exit = some error) (hseen : s.seen = true) (stop : Stop) :
    Stopped (Conversation.statusFor stop error) := by
  unfold State.exit at hexit
  split at hexit
  · next k hdoing =>
    obtain ⟨c, hc, hended⟩ := Option.bind_eq_some_iff.mp hexit
    have hlate := h.late hdoing hc hseen
    split at hended
    · next exit' hpc =>
      obtain rfl := Option.some.inj hended
      rw [hpc] at hlate
      cases exit' with
      | cancelled =>
        obtain rfl := Option.some.inj herror
        exact stopped_status stop
      | budget => cases hlate
      | provider error' => cases hlate
      | _ => cases herror
    · cases hended
  · cases hexit

/-- While a tool runs no answer was accepted. -/
theorem State.Sound.running {cfg : Config} {s : State} (h : s.Sound cfg)
    (hdoing : s.doing = .running) : s.accepted = none := by
  have hs := h.doing
  rw [hdoing] at hs
  obtain ⟨t, use, pending, hpc, -, hstarts⟩ := hs
  cases haccepted : s.accepted with
  | none => rfl
  | some answer =>
    have hfinal := (Conversation.decided_turn (Or.inl hpc)).mp (h.decided haccepted)
    rw [(Conversation.starts_eq_true hstarts).2.1] at hfinal
    cases hfinal

theorem decided_of_answerOf {s : Conversation.State} {answer : Answer}
    (h : answerOf s.pc = some answer) : Decided answer s := by
  unfold Decided
  cases hpc : s.pc with
  | tools t =>
    rw [hpc] at h
    exact h
  | deciding t =>
    rw [hpc] at h
    exact h
  | _ =>
    rw [hpc] at h
    cases h

theorem sound_step {cfg : Config} {s t : State} {a : Act} (h : s.Sound cfg)
    (hrun : Runs cfg s a t) : t.Sound cfg := by
  have hinbox : (Inbox.inbox cfg.inbox).Reachable t.inbox := by
    rcases (components_step hrun).2.1 with hsame | ⟨l, hstep⟩
    · rw [hsame]
      exact h.inbox
    · exact h.inbox.next hstep
  have hs := h.doing
  cases hrun with
  | flagged f hset =>
    refine h.keep rfl rfl hinbox (fun hseen => hset (h.watched hseen)) Or.inl ?_
    show Doing.Sound cfg { s with flags := f } s.doing
    cases hdoing : s.doing with
    | noticed =>
      rw [hdoing] at hs
      exact ⟨hs.1, hset hs.2⟩
    | _ =>
      rw [hdoing] at hs
      exact hs
  | mail l i hwho hstep =>
    refine h.keep rfl rfl hinbox h.watched Or.inl ?_
    show Doing.Sound cfg { s with inbox := i } s.doing
    cases hdoing : s.doing with
    | quiet =>
      rw [hdoing] at hs
      refine ⟨hs.1, fun hnone => ?_⟩
      obtain ⟨hquiet, hclosed⟩ := hs.2 hnone
      rcases hwho with hothers | ⟨-, hrunning⟩
      · exact quiet_step h.inbox hstep hothers hquiet hclosed
      · rw [hdoing] at hrunning
        cases hrunning
    | _ =>
      rw [hdoing] at hs
      exact hs
  | elsewhere l attempts hother hstep =>
    refine h.keep rfl rfl hinbox h.watched Or.inl ?_
    show Doing.Sound cfg { s with attempts } s.doing
    cases hdoing : s.doing with
    | calling k =>
      rw [hdoing] at hs
      obtain ⟨hpc, c, hc, hnode, hlate⟩ := hs
      have hl : l.callId ≠ some k := fun hk => hother k hk c hc hnode
      exact ⟨hpc, c, call_other hstep hl hc, hnode, hlate⟩
    | _ =>
      rw [hdoing] at hs
      exact hs
  | looked k c l attempts hdoing hl hc hlooks hobeys hstep =>
    refine h.keep (look_conv s true) (look_accepted s true) hinbox (h.look true)
      (fun _ => Or.inr fun status => h.calling hdoing) ?_
    show Doing.Sound cfg _ (s.look true).1.doing
    rw [look_doing, hdoing]
    obtain ⟨u, c', hmove, hc'⟩ := call_own hstep hl hc
    refine h.call hdoing hl hc hstep (look_conv s true) hc' fun hseen => ?_
    -- Seen stopped: then this look says so too.
    cases hlook : (s.look true).2 with
    | none => exact absurd hseen (h.unseen hlook)
    | some stop =>
      rw [hlook] at hobeys
      obtain ⟨c'', hc'', hlate⟩ := late_of_stop hstep hl hc hlooks hobeys
      rw [hc', Option.some.injEq] at hc''
      rw [hc'']
      exact hlate
  | callCancelled k c l attempts hdoing hl hc hlooks hcancelled hnoticed hstep =>
    refine h.keep rfl rfl hinbox (fun _ => Flags.must_of_noticed hnoticed)
      (fun _ => Or.inr fun status => h.calling hdoing) ?_
    show Doing.Sound cfg _ s.doing
    rw [hdoing]
    exact h.call hdoing hl hc hstep rfl (call_cancelled hstep hl hc hcancelled) fun _ => rfl
  | called k c l attempts hdoing hl hc hlooks hcancelled hstep =>
    refine h.keep rfl rfl hinbox h.watched Or.inl ?_
    show Doing.Sound cfg _ s.doing
    rw [hdoing]
    obtain ⟨u, c', hmove, hc'⟩ := call_own hstep hl hc
    refine h.call hdoing hl hc hstep rfl hc' fun hseen => ?_
    have hretry : ∀ jitter, l ≠ .retry k jitter := by
      rintro jitter rfl
      rw [looks_of_retry hstep hc] at hlooks
      cases hlooks
    obtain ⟨c'', hc'', hlate⟩ := late_step hstep hl hc (h.late hdoing hc hseen) hretry
    rw [hc', Option.some.injEq] at hc''
    rw [hc'']
    exact hlate
  | streamCancelled k c hdoing hc hpc hnoticed =>
    refine h.keep rfl rfl hinbox (fun _ => Flags.must_of_noticed hnoticed)
      (fun _ => Or.inr fun status => h.calling hdoing) ?_
    show Doing.Sound cfg _ s.doing
    rw [hdoing] at hs ⊢
    obtain ⟨hrequesting, c', hc', hnode, -⟩ := hs
    rw [hc, Option.some.injEq] at hc'
    subst hc'
    exact ⟨hrequesting, c, hc, hnode, fun _ => by rw [hpc]; rfl⟩
  | opened r conv hpc hbatch hstep =>
    exact h.conversed hstep rfl hinbox h.watched (fun _ _ _ hl => by cases hl)
      (fun _ _ status _ hends => by cases hends) (sound_thinking hstep (by simp))
  | unrequested stop conv hlook hpc hstep hended =>
    refine h.conversed hstep (look_accepted s true) hinbox (h.look true)
      (fun _ _ _ hl => by cases hl) (fun hseen _ status _ hends => ?_) hended
    cases hends with
    | stopped stop => exact stopped_status stop
    | capped => exact absurd hseen (h.unseen hlook)
  | requested n stop conv attempts hlook hpc hstep hconv hcall =>
    obtain rfl : stop = none := by
      cases request_of_requesting hstep hconv
      rfl
    refine h.conversed hstep (look_accepted s true) hinbox (h.look true)
      (fun _ _ _ hl => by cases hl) (fun hseen _ status _ _ => ?_) ?_
    · exact absurd hseen (h.unseen hlook)
    · obtain rfl := Option.some.inj hcall
      refine ⟨⟨n, hconv⟩, Attempts.Call.fresh cfg.me conv.outputCap, ?_, rfl, fun hseen => ?_⟩
      · exact List.getElem?_concat_length
      · exact absurd hseen (h.unseen hlook)
  | answered response invalid conv hexit hstep =>
    exact h.conversed hstep rfl hinbox h.watched (fun _ _ _ hl => by cases hl)
      (fun _ _ status _ hends => by cases hends) (sound_thinking hstep (by simp))
  | failed exit error conv hexit herror hstep =>
    refine h.conversed hstep rfl hinbox h.watched (fun _ _ _ hl => by cases hl)
      (fun hseen _ status _ hends => ?_) (sound_thinking hstep (by simp))
    cases hends with
    | failed error stop => exact h.failed hexit herror hseen s.flags.cancelStatus
  | started u use pending hpc hdoing hpending hstarts =>
    refine h.keep (look_conv s _) (look_accepted s _) hinbox (h.look _)
      (fun _ => Or.inr fun status hended => ?_) ?_
    · rw [hpc] at hended
      cases hended
    · refine ⟨u, use, pending, ?_, hpending, ?_⟩
      · show (s.look _).1.conv.pc = _
        rw [look_conv]
        exact hpc
      · rw [(Conversation.starts_eq_true hstarts).2.2] at hstarts
        exact hstarts
  | unstarted u use pending stop conv hpc hpending hlook hstarts hstep =>
    refine h.conversed hstep (look_accepted s _) hinbox (h.look _) ?_
      (fun _ _ status _ hends => by cases hends) (sound_thinking hstep (by simp))
    intro stop' output answer hl hfinal
    cases hl
    cases hfinal
  | toolEnded output late conv hdoing hlook hstep =>
    have hnone := h.running hdoing
    refine ⟨hinbox, h.look _, decided_of_answerOf, fun hstill => hstill,
      sound_thinking hstep (by simp), fun hseen hstill status hpc => ?_⟩
    cases ends_of_step hstep hpc
  | overtaken conv hdoing hnoticed hstep =>
    refine h.conversed hstep rfl hinbox (fun _ => rfl) ?_
      (fun _ _ status _ hends => by cases hends) (sound_thinking hstep (by simp))
    intro stop' output answer hl hfinal
    cases hl
    cases hfinal
  | resulted u asked wanted r conv hpc hbatch hstep =>
    exact h.conversed hstep (look_accepted s _) hinbox (h.look _) (fun _ _ _ hl => by cases hl)
      (fun _ _ status _ hends => by cases hends) (sound_thinking hstep (by simp))
  | decided u wanted r conv hpc hbatch hstep =>
    refine h.conversed hstep (look_accepted s _) hinbox (h.look _)
      (fun _ _ _ hl => by cases hl) (fun hseen hnone status _ hends => ?_)
      (sound_thinking hstep (by simp))
    have hanswer := h.undecided hnone
    rw [hpc] at hanswer
    have hasked : u.finalAnswer.isNone = true := Option.isNone_iff_eq_none.mpr hanswer
    rw [hasked] at hends hseen
    generalize hlook : (s.look true).2 = stop at hends
    cases hends with
    | completed stop batch hsome =>
      rw [hpc] at hsome
      exact absurd hanswer hsome
    | overtaken stop batch => exact stopped_status stop
    | wentOut batch status hturns => exact absurd hseen (h.unseen hlook)
  | delivered m box batch hpc hidle =>
    exact h.keep rfl rfl hinbox h.watched Or.inl ⟨m, hpc⟩
  | waited m hpc => exact h.keep rfl rfl hinbox h.watched Or.inl ⟨m, hpc⟩
  | quieted m hpc hqueue hawait hres =>
    refine h.keep rfl rfl hinbox h.watched Or.inl ⟨⟨m, hpc⟩, fun hnone => ?_⟩
    refine ⟨⟨hqueue, hawait, hres⟩, ?_⟩
    show (s.inbox.box.closed || cfg.agent.output.isNone) = true
    rw [hnone]
    exact Bool.or_true _
  | idleCancelled hdoing hnoticed =>
    rw [hdoing] at hs
    have hmust := Flags.must_of_noticed hnoticed
    refine h.keep rfl rfl hinbox (fun _ => hmust) (fun _ => Or.inr fun status hended => ?_)
      ⟨hs, hmust⟩
    obtain ⟨m, hpc⟩ := hs
    rw [hpc] at hended
    cases hended
  | woken batch conv hdoing hstep =>
    exact h.conversed hstep rfl hinbox h.watched (fun _ _ _ hl => by cases hl)
      (fun _ _ status _ hends => by cases hends) (sound_thinking hstep (by simp))
  | idled wanted r conv hdoing hwanted hbatch hstep =>
    refine h.conversed hstep (look_accepted s _) hinbox (h.look _)
      (fun _ _ _ hl => by cases hl) (fun hseen _ status _ hends => ?_)
      (sound_thinking hstep (by simp))
    generalize hlook : (s.look true).2 = stop at hends
    cases hends with
    | idleStopped stop batch => exact stopped_status stop
    | idleEnded batch status houtput => exact absurd hseen (h.unseen hlook)
  | aborted conv hstep =>
    exact h.conversed hstep rfl hinbox h.watched (fun _ _ _ hl => by cases hl)
      (fun _ _ status _ hends => by cases hends) (sound_thinking hstep (by simp))

theorem sound_init (cfg : Config) : (loop cfg).init.Sound cfg where
  inbox := .init
  watched hseen := by cases hseen
  decided haccepted := by cases haccepted
  undecided _ := rfl
  doing := by
    intro n hpc
    cases hpc
  ended hseen := by cases hseen

theorem sound_of_reachable {cfg : Config} {s : State} (h : (loop cfg).Reachable s) :
    s.Sound cfg :=
  LTS.System.invariant (sound_init cfg)
    (fun _ _ _ hs _ hstep => sound_step hs (runs_of_step hstep)) s h

end Kyora.Loop
