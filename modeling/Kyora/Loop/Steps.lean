import Kyora.Loop.Basic

/-! # What one act of the loop does

  A look changes the flags and `seen` only. `Runs` lists the acts with the
  state each leads to, the looks still unevaluated.
-/

namespace Kyora.Loop

open Conversation (Stop Turn ToolOutput Answer CallError)
open Mailbox (Batch)

/-! ### Looking at the flags -/

theorem Flags.look_must (f : Flags) : f.look.1.must = f.must := by
  obtain ⟨token, owner, expired⟩ := f
  cases token <;> cases owner <;> rfl

theorem Flags.look_isSome (f : Flags) : f.look.2.isSome = f.must := by
  obtain ⟨token, owner, expired⟩ := f
  cases token <;> cases owner <;> cases expired <;> rfl

theorem Flags.must_of_noticed {f : Flags} (h : f.noticed = true) : f.must = true := by
  obtain ⟨token, owner, expired⟩ := f
  cases token <;> cases owner <;> cases expired <;> first | rfl | cases h

section look

variable (s : State) (asked : Bool)

@[simp] theorem look_conv : (s.look asked).1.conv = s.conv := by
  cases asked <;> rfl

@[simp] theorem look_inbox : (s.look asked).1.inbox = s.inbox := by
  cases asked <;> rfl

@[simp] theorem look_attempts : (s.look asked).1.attempts = s.attempts := by
  cases asked <;> rfl

@[simp] theorem look_doing : (s.look asked).1.doing = s.doing := by
  cases asked <;> rfl

@[simp] theorem look_accepted : (s.look asked).1.accepted = s.accepted := by
  cases asked <;> rfl

@[simp] theorem look_started : (s.look asked).1.started = s.started := by
  cases asked <;> rfl

@[simp] theorem look_dispatched : (s.look asked).1.dispatched = s.dispatched := by
  cases asked <;> rfl

@[simp] theorem look_must : (s.look asked).1.flags.must = s.flags.must := by
  cases asked with
  | true => exact s.flags.look_must
  | false => rfl

end look

/-- What was seen before is still seen. -/
theorem look_seen {s : State} (asked : Bool) (h : s.seen = true) :
    (s.look asked).1.seen = true := by
  cases asked with
  | true => simp [State.look, h]
  | false => exact h

/-- A look finds the node stopped only if it is. -/
theorem must_of_look {s : State} {asked : Bool} (h : (s.look asked).1.seen = true) :
    s.seen = true ∨ s.flags.must = true := by
  cases asked with
  | true =>
    rw [← s.flags.look_isSome]
    simpa [State.look] using h
  | false => exact Or.inl h

/-- A look that finds nothing: the node is not stopped at that moment. -/
theorem must_of_look_none {s : State} (h : (s.look true).2 = none) : s.flags.must = false := by
  rw [← s.flags.look_isSome]
  simp only [State.look, if_true] at h
  rw [h]
  rfl

/-! ### Acts -/

/-- A step of another task, or of the running tool. -/
def ByWhom (s : State) (l : Inbox.Label) : Prop :=
  byOthers l = true ∨ (byTool l = true ∧ s.doing = .running)

/-- A call that is not the one under way, or none at all. -/
def Elsewhere (cfg : Config) (s : State) (l : Attempts.Label) : Prop :=
  ∀ k, l.callId = some k → ∀ c, s.attempts.calls[k]? = some c → c.node ≠ cfg.me

/-- The acts and what holds where each is taken. -/
inductive Runs (cfg : Config) (s : State) : Act → State → Prop where
  | flagged {a : Act} (f : Flags) (hset : s.flags.must = true → f.must = true) :
      Runs cfg s a { s with flags := f }
  | mail (l : Inbox.Label) (i : Inbox.State) (hwho : ByWhom s l)
      (hstep : Inbox.step cfg.inbox s.inbox l = some i) :
      Runs cfg s (.mail l) { s with inbox := i }
  | elsewhere (l : Attempts.Label) (attempts : Attempts.State) (hother : Elsewhere cfg s l)
      (hstep : Attempts.step cfg.attempts s.attempts l = some attempts) :
      Runs cfg s (.attempt l) { s with attempts }
  | looked (k : Nat) (c : Attempts.Call) (l : Attempts.Label) (attempts : Attempts.State)
      (hdoing : s.doing = .calling k) (hl : l.callId = some k)
      (hc : s.attempts.calls[k]? = some c) (hlooks : looksFirst c.pc = true)
      (hobeys : obeys (s.look true).2 l = true)
      (hstep : Attempts.step cfg.attempts s.attempts l = some attempts) :
      Runs cfg s (.attempt l)
        { (s.look true).1 with attempts, dispatched := s.dispatched ++ dispatches l }
  | callCancelled (k : Nat) (c : Attempts.Call) (l : Attempts.Label)
      (attempts : Attempts.State) (hdoing : s.doing = .calling k) (hl : l.callId = some k)
      (hc : s.attempts.calls[k]? = some c) (hlooks : looksFirst c.pc = false)
      (hcancelled : isCancelled l = true) (hnoticed : s.flags.noticed = true)
      (hstep : Attempts.step cfg.attempts s.attempts l = some attempts) :
      Runs cfg s (.attempt l) { s with attempts, seen := true }
  | called (k : Nat) (c : Attempts.Call) (l : Attempts.Label) (attempts : Attempts.State)
      (hdoing : s.doing = .calling k) (hl : l.callId = some k)
      (hc : s.attempts.calls[k]? = some c) (hlooks : looksFirst c.pc = false)
      (hcancelled : isCancelled l = false)
      (hstep : Attempts.step cfg.attempts s.attempts l = some attempts) :
      Runs cfg s (.attempt l) { s with attempts }
  | streamCancelled (k : Nat) (c : Attempts.Call) (hdoing : s.doing = .calling k)
      (hc : s.attempts.calls[k]? = some c) (hpc : c.pc = .streaming)
      (hnoticed : s.flags.noticed = true) : Runs cfg s .streamCancelled { s with seen := true }
  | opened (r : Inbox.State × Batch) (conv : Conversation.State) (hpc : s.conv.pc = .opening)
      (hbatch : s.delivery cfg true = some r)
      (hstep : Conversation.step cfg.agent s.conv (.opened r.2) = some conv) :
      Runs cfg s .opened { s with inbox := r.1, conv, doing := .thinking }
  | unrequested (stop : Option Stop) (conv : Conversation.State)
      (hlook : (s.look true).2 = stop) (hpc : s.conv.pc = .head)
      (hstep : Conversation.step cfg.agent s.conv (.request stop) = some conv)
      (hended : ∀ n, conv.pc ≠ .requesting n) :
      Runs cfg s .request { (s.look true).1 with conv, doing := .thinking }
  | requested (n : Nat) (stop : Option Stop) (conv : Conversation.State)
      (attempts : Attempts.State) (hlook : (s.look true).2 = stop) (hpc : s.conv.pc = .head)
      (hstep : Conversation.step cfg.agent s.conv (.request stop) = some conv)
      (hconv : conv.pc = .requesting n)
      (hcall : Attempts.step cfg.attempts s.attempts (.call cfg.me conv.outputCap) =
        some attempts) :
      Runs cfg s .request { (s.look true).1 with
        conv, attempts
        inbox := { s.inbox with box := Mailbox.newTurn s.inbox.box, items := [] }
        doing := .calling s.attempts.calls.length }
  | answered (response : ModelResponse) (invalid : List (String × String))
      (conv : Conversation.State) (hexit : s.exit = some .response)
      (hstep : Conversation.step cfg.agent s.conv (.responded response invalid) = some conv) :
      Runs cfg s (.answered response invalid) { s with conv, doing := .thinking }
  | failed (exit : Attempts.Exit) (error : CallError) (conv : Conversation.State)
      (hexit : s.exit = some exit) (herror : callError exit = some error)
      (hstep : Conversation.step cfg.agent s.conv (.failed error s.flags.cancelStatus) =
        some conv) : Runs cfg s .failed { s with conv, doing := .thinking }
  | started (t : Turn) (use : ToolUse) (pending : List ToolUse) (hpc : s.conv.pc = .tools t)
      (hdoing : s.doing = .thinking) (hpending : t.pending = use :: pending)
      (hstarts : Conversation.starts cfg.agent t use (s.look (asksToStart t use)).2 = true) :
      Runs cfg s .toolStart { (s.look (asksToStart t use)).1 with
        doing := .running, started := s.started ++ [use.id] }
  | unstarted (t : Turn) (use : ToolUse) (pending : List ToolUse) (stop : Option Stop)
      (conv : Conversation.State) (hpc : s.conv.pc = .tools t)
      (hpending : t.pending = use :: pending) (hlook : (s.look (asksToStart t use)).2 = stop)
      (hstarts : Conversation.starts cfg.agent t use stop = false)
      (hstep : Conversation.step cfg.agent s.conv (.tool stop (.error "") none) = some conv) :
      Runs cfg s .toolStart { (s.look (asksToStart t use)).1 with conv, doing := .thinking }
  | toolEnded (output : ToolOutput) (late : Option Stop) (conv : Conversation.State)
      (hdoing : s.doing = .running) (hlook : (s.look output.finalAnswer.isSome).2 = late)
      (hstep : Conversation.step cfg.agent s.conv (.tool none output late) = some conv) :
      Runs cfg s (.toolEnd output) { (s.look output.finalAnswer.isSome).1 with
        conv, doing := .thinking, accepted := answerOf conv.pc }
  | overtaken (conv : Conversation.State) (hdoing : s.doing = .running)
      (hnoticed : s.flags.noticed = true)
      (hstep : Conversation.step cfg.agent s.conv (.tool none (.error "cancelled") none) =
        some conv) :
      Runs cfg s .overtaken { s with
        flags := { s.flags with token := true }, seen := true, conv, doing := .thinking }
  | resulted (t : Turn) (asked wanted : Bool) (r : Inbox.State × Batch)
      (conv : Conversation.State) (hpc : s.conv.pc = .tools t)
      (hbatch : s.delivery cfg wanted = some r)
      (hstep : Conversation.step cfg.agent s.conv (.results (s.look asked).2 r.2) = some conv) :
      Runs cfg s .results { (s.look asked).1 with inbox := r.1, conv, doing := .thinking }
  | decided (t : Turn) (wanted : Bool) (r : Inbox.State × Batch) (conv : Conversation.State)
      (hpc : s.conv.pc = .deciding t) (hbatch : s.delivery cfg wanted = some r)
      (hstep : Conversation.step cfg.agent s.conv
        (.decide (s.look t.finalAnswer.isNone).2 r.2) = some conv) :
      Runs cfg s .decide
        { (s.look t.finalAnswer.isNone).1 with inbox := r.1, conv, doing := .thinking }
  | delivered (m : Message) (box : Mailbox.State) (batch : Batch) (hpc : s.conv.pc = .idling m)
      (hidle : Mailbox.idle s.inbox.box cfg.agent.output.isNone cfg.agent.limits.deliveryChars
        (Envelope.size cfg.agent.names) = some (box, .deliver batch)) :
      Runs cfg s .poll
        { s with inbox := s.inbox.handOver cfg.inbox box batch, doing := .found batch }
  | waited (m : Message) (hpc : s.conv.pc = .idling m) :
      Runs cfg s .poll { s with doing := .waiting }
  | quieted (m : Message) (hpc : s.conv.pc = .idling m) (hqueue : s.inbox.box.queue = [])
      (hawait : s.inbox.box.awaiting = ∅) (hres : s.inbox.box.reserved = 0) :
      Runs cfg s .poll { s with
        inbox := { s.inbox with box := { s.inbox.box with
          closed := s.inbox.box.closed || cfg.agent.output.isNone } }
        doing := .quiet }
  | idleCancelled (hdoing : s.doing = .waiting) (hnoticed : s.flags.noticed = true) :
      Runs cfg s .idleCancelled { s with seen := true, doing := .noticed }
  | woken (batch : Batch) (conv : Conversation.State) (hdoing : s.doing = .found batch)
      (hstep : Conversation.step cfg.agent s.conv (.idled (some batch) none ⟨[], 0, 0⟩) =
        some conv) : Runs cfg s .idled { s with conv, doing := .thinking }
  | idled (wanted : Bool) (r : Inbox.State × Batch) (conv : Conversation.State)
      (hdoing : s.doing = .quiet ∨ s.doing = .noticed)
      (hwanted : wanted = true → cfg.agent.output.isSome = true)
      (hbatch : s.delivery cfg wanted = some r)
      (hstep : Conversation.step cfg.agent s.conv (.idled none (s.look true).2 r.2) =
        some conv) :
      Runs cfg s .idled { (s.look true).1 with inbox := r.1, conv, doing := .thinking }
  | aborted (conv : Conversation.State)
      (hstep : Conversation.step cfg.agent s.conv .abort = some conv) :
      Runs cfg s .abort { s with conv, doing := .thinking }

theorem converse_eq_some {cfg : Config} {s t : State} {l : Conversation.Label} :
    s.converse cfg l = some t ↔ ∃ conv, Conversation.step cfg.agent s.conv l = some conv ∧
      t = { s with conv, doing := .thinking } := by
  unfold State.converse
  rw [Option.map_eq_some_iff]
  simp only [eq_comm]

theorem delivery_look {cfg : Config} (s : State) (asked wanted : Bool) :
    (s.look asked).1.delivery cfg wanted = s.delivery cfg wanted := by
  unfold State.delivery
  rw [look_inbox]

/-- A step of the conversation that comes with a delivery. -/
theorem converseWith_eq_some {cfg : Config} {s t : State} {asked wanted : Bool}
    {l : Batch → Conversation.Label}
    (h : (s.look asked).1.converseWith cfg wanted l = some t) :
    ∃ r conv, s.delivery cfg wanted = some r ∧
      Conversation.step cfg.agent s.conv (l r.2) = some conv ∧
      t = { (s.look asked).1 with inbox := r.1, conv, doing := .thinking } := by
  obtain ⟨r, hbatch, h⟩ := Option.bind_eq_some_iff.mp h
  rw [delivery_look] at hbatch
  obtain ⟨conv, hstep, rfl⟩ := converse_eq_some.mp h
  refine ⟨r, conv, hbatch, ?_, rfl⟩
  rw [← hstep, ← look_conv s asked]

/-- A step of the call under way. -/
theorem runs_call {cfg : Config} {s t : State} {k : Nat} {c : Attempts.Call}
    {l : Attempts.Label} (hdoing : s.doing = .calling k) (hl : l.callId = some k)
    (hc : s.attempts.calls[k]? = some c) (h : stepCall cfg s c l = some t) :
    Runs cfg s (.attempt l) t := by
  unfold stepCall at h
  cases hlooks : looksFirst c.pc with
  | true =>
    simp only [hlooks, if_true] at h
    split at h
    · next hobeys =>
      obtain ⟨attempts, hstep, rfl⟩ := Option.map_eq_some_iff.mp h
      exact .looked k c l attempts hdoing hl hc hlooks hobeys hstep
    · cases h
  | false =>
    simp only [hlooks, Bool.false_eq_true, if_false] at h
    cases hcancelled : isCancelled l with
    | true =>
      simp only [hcancelled, if_true] at h
      split at h
      · next hnoticed =>
        obtain ⟨attempts, hstep, rfl⟩ := Option.map_eq_some_iff.mp h
        exact .callCancelled k c l attempts hdoing hl hc hlooks hcancelled hnoticed hstep
      · cases h
    | false =>
      simp only [hcancelled, Bool.false_eq_true, if_false] at h
      obtain ⟨attempts, hstep, rfl⟩ := Option.map_eq_some_iff.mp h
      exact .called k c l attempts hdoing hl hc hlooks hcancelled hstep

theorem runs_attempt {cfg : Config} {s t : State} {l : Attempts.Label}
    (h : stepAttempt cfg s l = some t) : Runs cfg s (.attempt l) t := by
  unfold stepAttempt at h
  cases hl : l.callId with
  | none =>
    simp only [hl] at h
    split at h
    · obtain ⟨attempts, hstep, rfl⟩ := Option.map_eq_some_iff.mp h
      refine .elsewhere l attempts (fun k hk => ?_) hstep
      rw [hl] at hk
      cases hk
    · cases h
  | some k =>
    simp only [hl] at h
    obtain ⟨c, hc, hwho⟩ := Option.bind_eq_some_iff.mp h
    split at hwho
    · next hnode =>
      obtain ⟨attempts, hstep, rfl⟩ := Option.map_eq_some_iff.mp hwho
      refine .elsewhere l attempts (fun k' hk c' hc' => ?_) hstep
      rw [hl, Option.some.injEq] at hk
      rw [← hk, hc, Option.some.injEq] at hc'
      rw [← hc']
      exact hnode
    · split at hwho
      · next j hdoing =>
        split at hwho
        · next hj => exact runs_call (hj ▸ hdoing) hl hc hwho
        · cases hwho
      · cases hwho

theorem runs_request {cfg : Config} {s t : State} (hpc : s.conv.pc = .head)
    (h : stepRequest cfg s = some t) : Runs cfg s .request t := by
  obtain ⟨u, hu, h⟩ := Option.bind_eq_some_iff.mp h
  obtain ⟨conv, hstep, rfl⟩ := converse_eq_some.mp hu
  rw [look_conv] at hstep
  simp only at h
  split at h
  · next n hconv =>
    obtain ⟨attempts, hcall, rfl⟩ := Option.map_eq_some_iff.mp h
    simp only [look_attempts, look_inbox] at hcall ⊢
    exact .requested n _ conv attempts rfl hpc hstep hconv hcall
  · next hnot =>
    obtain rfl := Option.some.inj h
    exact .unrequested _ conv rfl hpc hstep hnot

theorem runs_toolStart {cfg : Config} {s t : State} {u : Turn} (hdoing : s.doing = .thinking)
    (hpc : s.conv.pc = .tools u) (h : stepToolStart cfg s u = some t) :
    Runs cfg s .toolStart t := by
  unfold stepToolStart at h
  split at h
  · cases h
  · next use pending hpending =>
    simp only at h
    split at h
    · next hstarts =>
      obtain rfl := Option.some.inj h
      exact .started u use pending hpc hdoing hpending hstarts
    · next hstarts =>
      obtain ⟨conv, hstep, rfl⟩ := converse_eq_some.mp h
      rw [look_conv] at hstep
      exact .unstarted u use pending _ conv hpc hpending rfl (Bool.eq_false_iff.mpr hstarts)
        hstep

theorem runs_poll {cfg : Config} {s t : State} {m : Message} (hpc : s.conv.pc = .idling m)
    (h : stepPoll cfg s = some t) : Runs cfg s .poll t := by
  obtain ⟨⟨box, r⟩, hidle, rfl⟩ := Option.map_eq_some_iff.mp h
  rcases Mailbox.idle_cases hidle with
    ⟨-, batch, rfl, -⟩ | ⟨hqueue, hawait, hres, rfl, rfl⟩ | ⟨-, -, rfl, rfl⟩
  · exact .delivered m box batch hpc hidle
  · exact .quieted m hpc hqueue hawait hres
  · exact .waited m hpc

theorem runs_idled {cfg : Config} {s t : State} (h : stepIdled cfg s = some t) :
    Runs cfg s .idled t := by
  have hquiet : ∀ {wanted : Bool}, (s.doing = .quiet ∨ s.doing = .noticed) →
      (wanted = true → cfg.agent.output.isSome = true) →
      (s.look true).1.converseWith cfg wanted (.idled none (s.look true).2) = some t →
      Runs cfg s .idled t := by
    intro wanted hdoing hwanted hwith
    obtain ⟨r, conv, hbatch, hstep, rfl⟩ := converseWith_eq_some hwith
    exact .idled wanted r conv hdoing hwanted hbatch hstep
  have hsome : ∀ {a b c : Bool}, (a && b && c) = true → b = true := by
    intro a b c hall
    simp only [Bool.and_eq_true] at hall
    exact hall.1.2
  unfold stepIdled at h
  cases hdoing : s.doing with
  | found batch =>
    simp only [hdoing] at h
    obtain ⟨conv, hstep, rfl⟩ := converse_eq_some.mp h
    exact .woken batch conv hdoing hstep
  | quiet =>
    simp only [hdoing] at h
    exact hquiet (Or.inl hdoing) hsome h
  | noticed =>
    simp only [hdoing] at h
    exact hquiet (Or.inr hdoing) hsome h
  | _ =>
    simp only [hdoing] at h
    cases h

theorem runs_abort {cfg : Config} {s t : State} (h : stepAbort cfg s = some t) :
    Runs cfg s .abort t := by
  have habort : s.converse cfg .abort = some t → Runs cfg s .abort t := by
    intro hconv
    obtain ⟨conv, hstep, rfl⟩ := converse_eq_some.mp hconv
    exact .aborted conv hstep
  unfold stepAbort at h
  split at h
  · split at h
    · exact habort h
    · exact habort h
    · exact habort h
    · cases h
  · exact habort h

/-- The list of acts is complete. -/
theorem runs_of_step {cfg : Config} {s t : State} {a : Act}
    (h : (loop cfg).step s a = some t) : Runs cfg s a t := by
  cases a with
  | cancel =>
    obtain rfl := Option.some.inj h
    exact .flagged _ fun _ => rfl
  | cancelOwner =>
    obtain rfl := Option.some.inj h
    exact .flagged _ fun _ => by simp [Flags.must]
  | forward =>
    simp only [loop, step] at h
    split at h
    · obtain rfl := Option.some.inj h
      exact .flagged _ fun _ => rfl
    · cases h
  | expire =>
    obtain rfl := Option.some.inj h
    exact .flagged _ fun _ => by simp [Flags.must]
  | mail l =>
    simp only [loop, step] at h
    split at h
    · next hdoing =>
      split at h
      · next hwho =>
        obtain ⟨i, hstep, rfl⟩ := Option.map_eq_some_iff.mp h
        refine .mail l i ?_ hstep
        rcases Bool.or_eq_true _ _ ▸ hwho with hothers | htool
        · exact Or.inl hothers
        · exact Or.inr ⟨htool, hdoing⟩
      · cases h
    · split at h
      · next hothers =>
        obtain ⟨i, hstep, rfl⟩ := Option.map_eq_some_iff.mp h
        exact .mail l i (Or.inl hothers) hstep
      · cases h
  | attempt l => exact runs_attempt h
  | streamCancelled =>
    simp only [loop, step] at h
    split at h
    · next k hdoing =>
      split at h
      · next hstream =>
        simp only [Bool.and_eq_true, decide_eq_true_eq] at hstream
        obtain ⟨hnoticed, hpc⟩ := hstream
        obtain ⟨c, hc, hstreaming⟩ := Option.map_eq_some_iff.mp hpc
        obtain rfl := Option.some.inj h
        exact .streamCancelled k c hdoing hc hstreaming hnoticed
      · cases h
    · cases h
  | opened =>
    simp only [loop, step] at h
    split at h
    · next hdoing hpc =>
      obtain ⟨r, conv, hbatch, hstep, rfl⟩ := @converseWith_eq_some cfg s t false true _ h
      exact .opened r conv hpc hbatch hstep
    · cases h
  | request =>
    simp only [loop, step] at h
    split at h
    · next hdoing hpc => exact runs_request hpc h
    · cases h
  | answered response invalid =>
    simp only [loop, step] at h
    split at h
    · next hexit =>
      obtain ⟨conv, hstep, rfl⟩ := converse_eq_some.mp h
      exact .answered response invalid conv hexit hstep
    · cases h
  | failed =>
    simp only [loop, step] at h
    split at h
    · next error herror =>
      obtain ⟨exit, hexit, herror⟩ := Option.bind_eq_some_iff.mp herror
      obtain ⟨conv, hstep, rfl⟩ := converse_eq_some.mp h
      exact .failed exit error conv hexit herror hstep
    · cases h
  | toolStart =>
    simp only [loop, step] at h
    split at h
    · next u hdoing hpc => exact runs_toolStart hdoing hpc h
    · cases h
  | toolEnd output =>
    simp only [loop, step] at h
    split at h
    · next hdoing =>
      obtain ⟨u, hu, rfl⟩ := Option.map_eq_some_iff.mp h
      obtain ⟨conv, hstep, rfl⟩ := converse_eq_some.mp hu
      rw [look_conv] at hstep
      exact .toolEnded output _ conv hdoing rfl hstep
    · cases h
  | overtaken =>
    simp only [loop, step] at h
    split at h
    · next u hdoing hpc =>
      unfold stepOvertaken at h
      split at h
      · cases h
      · split at h
        · next hnoticed =>
          obtain ⟨conv, hstep, rfl⟩ := converse_eq_some.mp h
          exact .overtaken conv hdoing (Bool.and_eq_true _ _ ▸ hnoticed).1 hstep
        · cases h
    · cases h
  | results =>
    simp only [loop, step] at h
    split at h
    · next u hdoing hpc =>
      obtain ⟨r, conv, hbatch, hstep, rfl⟩ := converseWith_eq_some h
      exact .resulted u _ _ r conv hpc hbatch hstep
    · cases h
  | decide =>
    simp only [loop, step] at h
    split at h
    · next u hdoing hpc =>
      obtain ⟨r, conv, hbatch, hstep, rfl⟩ := converseWith_eq_some h
      exact .decided u _ r conv hpc hbatch hstep
    · cases h
  | poll =>
    simp only [loop, step] at h
    split at h
    · next m hdoing hpc => exact runs_poll hpc h
    · next m hdoing hpc => exact runs_poll hpc h
    · cases h
  | idleCancelled =>
    simp only [loop, step] at h
    split at h
    · next hdoing =>
      split at h
      · next hnoticed =>
        obtain rfl := Option.some.inj h
        exact .idleCancelled hdoing hnoticed
      · cases h
    · cases h
  | idled => exact runs_idled h
  | abort => exact runs_abort h

/-! ### The call under way -/

/-- The request was dispatched, or is not going to be: what is left of the call
    does not ask for the budget or give up without looking. -/
def isLate : Attempts.Pc → Bool
  | .streaming | .finished _ _ | .settled _ _ | .recording _ _ | .failed _ => true
  | .leaving exit | .ended exit =>
    match exit with
    | .budget | .provider _ => false
    | _ => true
  | _ => false

theorem moved_node {cfg : Attempts.Config} {s u : Attempts.State} {c c' : Attempts.Call}
    (h : Attempts.Moved cfg s c u c') : c'.node = c.node := by
  cases h <;> rfl

/-- Steps of other calls leave a call alone. -/
theorem call_other {cfg : Attempts.Config} {s t : Attempts.State} {l : Attempts.Label}
    {k : Nat} {c : Attempts.Call} (h : Attempts.step cfg s l = some t)
    (hl : l.callId ≠ some k) (hc : s.calls[k]? = some c) : t.calls[k]? = some c := by
  have hstored : (∃ k', l.callId = some k' ∧ Attempts.StoredAt cfg s k' t) →
      t.calls[k]? = some c := by
    rintro ⟨k', hk', c₀, u, c', -, hmove, rfl⟩
    have hne : k' ≠ k := fun heq => hl (heq ▸ hk')
    show (u.calls.set k' c')[k]? = some c
    rw [List.getElem?_set_ne hne, hmove.calls]
    exact hc
  cases l with
  | ledger l' =>
    simp only [Attempts.step] at h
    split at h
    · obtain ⟨session, -, rfl⟩ := Option.map_eq_some_iff.mp h
      exact hc
    · cases h
  | call node maxTokens =>
    obtain rfl := Option.some.inj h
    have hlt : k < s.calls.length := (List.getElem?_eq_some_iff.mp hc).1
    show (s.calls ++ [_])[k]? = some c
    rw [List.getElem?_append_left hlt]
    exact hc
  | _ => exact hstored (Attempts.stored_of_step h (by simp) (by simp))

/-- A step of a call moves it on. -/
theorem call_own {cfg : Attempts.Config} {s t : Attempts.State} {l : Attempts.Label}
    {k : Nat} {c : Attempts.Call} (h : Attempts.step cfg s l = some t)
    (hl : l.callId = some k) (hc : s.calls[k]? = some c) :
    ∃ u c', Attempts.Moved cfg s c u c' ∧ t.calls[k]? = some c' := by
  have hledger : ∀ l', l ≠ .ledger l' := by
    rintro l' rfl
    cases hl
  have hcall : ∀ node maxTokens, l ≠ .call node maxTokens := by
    rintro node maxTokens rfl
    cases hl
  obtain ⟨k', hk', c₀, u, c', hc₀, hmove, rfl⟩ := Attempts.stored_of_step h hledger hcall
  rw [hl, Option.some.injEq] at hk'
  subst hk'
  rw [hc, Option.some.injEq] at hc₀
  subst hc₀
  refine ⟨u, c', hmove, ?_⟩
  have hlt : k < u.calls.length := by
    rw [hmove.calls]
    exact (List.getElem?_eq_some_iff.mp hc).1
  exact List.getElem?_set_self hlt

/-- A call whose request failed is retried, or leaves cancelled. -/
theorem cancelled_of_failed {cfg : Attempts.Config} {s t : Attempts.State}
    {l : Attempts.Label} {k : Nat} {c : Attempts.Call} {error : ProviderError}
    (h : Attempts.step cfg s l = some t) (hl : l.callId = some k)
    (hc : s.calls[k]? = some c) (hpc : c.pc = .failed error)
    (hretry : ∀ jitter, l ≠ .retry k jitter) :
    t.calls[k]? = some { c with pc := .leaving .cancelled } := by
  have hlt : k < s.calls.length := (List.getElem?_eq_some_iff.mp hc).1
  cases l with
  | retry k' jitter =>
    obtain rfl := Option.some.inj hl
    exact absurd rfl (hretry jitter)
  | cancelled k' =>
    obtain rfl := Option.some.inj hl
    simp only [Attempts.step, hc, hpc, Attempts.Pc.isCancellable, Option.bind_some, if_true,
      Option.some.injEq] at h
    subst h
    exact List.getElem?_set_self hlt
  | ledger l' => cases hl
  | call node maxTokens => cases hl
  | _ =>
    obtain rfl := Option.some.inj hl
    simp [Attempts.step, hc, hpc, Attempts.stepEmitted, Attempts.stepRefused,
      Attempts.stepLeave, Attempts.Pc.isAwait] at h

/-- A call that records the end of an attempt goes on with its result. -/
theorem late_of_recording {cfg : Attempts.Config} {s t : Attempts.State}
    {l : Attempts.Label} {k : Nat} {c : Attempts.Call} {result : Attempts.Result}
    {panicked : Bool} (h : Attempts.step cfg s l = some t) (hl : l.callId = some k)
    (hc : s.calls[k]? = some c) (hpc : c.pc = .recording result panicked) :
    ∃ c', t.calls[k]? = some c' ∧ isLate c'.pc = true := by
  have hlt : k < s.calls.length := (List.getElem?_eq_some_iff.mp hc).1
  cases l with
  | emitted k' =>
    obtain rfl := Option.some.inj hl
    simp only [Attempts.step, hc, Option.bind_some, Attempts.stepEmitted, hpc,
      Option.some.injEq] at h
    subst h
    refine ⟨_, List.getElem?_set_self hlt, ?_⟩
    cases panicked with
    | true => rfl
    | false =>
      cases result with
      | response usage => rfl
      | failure error => rfl
  | refused k' =>
    obtain rfl := Option.some.inj hl
    simp only [Attempts.step, hc, Option.bind_some, Attempts.stepRefused, hpc,
      Option.some.injEq] at h
    subst h
    exact ⟨_, List.getElem?_set_self hlt, rfl⟩
  | unwind k' =>
    obtain rfl := Option.some.inj hl
    simp only [Attempts.step, hc, Option.bind_some, hpc, Attempts.Pc.isAwait, if_true,
      Option.some.injEq] at h
    subst h
    exact ⟨_, List.getElem?_set_self hlt, rfl⟩
  | ledger l' => cases hl
  | call node maxTokens => cases hl
  | _ =>
    obtain rfl := Option.some.inj hl
    simp [Attempts.step, hc, hpc, Attempts.stepRetry, Attempts.stepLeave,
      Attempts.Pc.isCancellable] at h

theorem late_step {cfg : Attempts.Config} {s t : Attempts.State} {l : Attempts.Label}
    {k : Nat} {c : Attempts.Call} (h : Attempts.step cfg s l = some t)
    (hl : l.callId = some k) (hc : s.calls[k]? = some c) (hlate : isLate c.pc = true)
    (hretry : ∀ jitter, l ≠ .retry k jitter) :
    ∃ c', t.calls[k]? = some c' ∧ isLate c'.pc = true := by
  by_cases hfailed : ∃ error, c.pc = .failed error
  · obtain ⟨error, hpc⟩ := hfailed
    exact ⟨_, cancelled_of_failed h hl hc hpc hretry, rfl⟩
  by_cases hrecording : ∃ result panicked, c.pc = .recording result panicked
  · obtain ⟨result, panicked, hpc⟩ := hrecording
    exact late_of_recording h hl hc hpc
  · obtain ⟨u, c', hmove, hc'⟩ := call_own h hl hc
    refine ⟨c', hc', ?_⟩
    cases hmove with
    | cancelled hpc => rfl
    | streamed result isPartial panicked hpc => rfl
    | settled result panicked g hpc hguard hsettle => rfl
    | released result panicked hpc => rfl
    | recorded result panicked exit hpc => exact absurd ⟨result, panicked, hpc⟩ hrecording
    | failed error hpc => rfl
    | gaveUp error unhinted hpc hunhinted => exact absurd ⟨error, hpc⟩ hfailed
    | retried error jitter delay pc hpc hto hdelay => exact absurd ⟨error, hpc⟩ hfailed
    | unwound hpc => rfl
    | droppedGuard exit g hpc hguard hsettle => exact hlate
    | droppedPermit exit hpc hguard hpermit => exact hlate
    | ended exit hpc hguard hpermit =>
      rw [hpc] at hlate
      exact hlate
    | _ => simp_all [isLate]

/-- A call that is cancelled leaves. -/
theorem call_cancelled {cfg : Attempts.Config} {s t : Attempts.State} {l : Attempts.Label}
    {k : Nat} {c : Attempts.Call} (h : Attempts.step cfg s l = some t)
    (hl : l.callId = some k) (hc : s.calls[k]? = some c) (hcancelled : isCancelled l = true) :
    t.calls[k]? = some { c with pc := .leaving .cancelled } := by
  have hlt : k < s.calls.length := (List.getElem?_eq_some_iff.mp hc).1
  cases l with
  | cancelled k' =>
    obtain rfl := Option.some.inj hl
    simp only [Attempts.step, hc, Option.bind_some] at h
    split at h
    · obtain rfl := Option.some.inj h
      exact List.getElem?_set_self hlt
    · cases h
  | _ => cases hcancelled

/-- A call that sees the node stopped reserves, dispatches and retries no more. -/
theorem late_of_stop {cfg : Attempts.Config} {s t : Attempts.State} {l : Attempts.Label}
    {k : Nat} {c : Attempts.Call} {stop : Stop} (h : Attempts.step cfg s l = some t)
    (hl : l.callId = some k) (hc : s.calls[k]? = some c) (hlooks : looksFirst c.pc = true)
    (hobeys : obeys (some stop) l = true) :
    ∃ c', t.calls[k]? = some c' ∧ isLate c'.pc = true := by
  have hlt : k < s.calls.length := (List.getElem?_eq_some_iff.mp hc).1
  cases l with
  | cancelled k' => exact ⟨_, call_cancelled h hl hc rfl, rfl⟩
  | unsent k' =>
    obtain rfl := Option.some.inj hl
    simp only [Attempts.step, hc, Option.bind_some] at h
    split at h
    · obtain rfl := Option.some.inj h
      exact ⟨_, List.getElem?_set_self hlt, rfl⟩
    · cases h
  | reserve k' => cases hobeys
  | dispatch k' => cases hobeys
  | retry k' jitter => cases hobeys
  | ledger l' => cases hl
  | call node maxTokens => cases hl
  | _ =>
    -- Not enabled where the loop of a call looks.
    obtain rfl := Option.some.inj hl
    cases hpc : c.pc <;> simp [hpc, looksFirst] at hlooks <;>
      simp [Attempts.step, hc, hpc, Attempts.stepEmitted, Attempts.stepRefused,
        Attempts.stepLeave, Attempts.Pc.isAwait] at h

/-- A retry follows a failure. -/
theorem looks_of_retry {cfg : Attempts.Config} {s t : Attempts.State} {k : Nat}
    {c : Attempts.Call} {jitter : Nat → Nat}
    (h : Attempts.step cfg s (.retry k jitter) = some t) (hc : s.calls[k]? = some c) :
    looksFirst c.pc = true := by
  simp only [Attempts.step, hc, Option.bind_some, Attempts.stepRetry] at h
  split at h
  · next error hpc =>
    rw [hpc]
    rfl
  · cases h

end Kyora.Loop
