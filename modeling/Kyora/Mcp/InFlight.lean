import Kyora.Framework.Pool
import Kyora.Framework.System
import Kyora.Framework.Tokens
import Kyora.Mcp.Names

/-! # Requests in flight

  A request waits for its response until its token is cancelled or its deadline
  passes, and tells the server when it gives up. It may also be dropped at any
  `await`. The response, the token, the clock and the drop come in any order,
  for any number of requests at once.

  * `State.step`: requests from their call to their end.
  * `Settled`: what is true of one request in every reachable state.
  * `notice_exact`: which cancellation notices a server gets.
-/

namespace Kyora.Mcp.InFlight

/-! ### Requests -/

/-- Why a request ended without a response. -/
inductive Stopped where
  | cancelled
  | timedOut
  deriving DecidableEq, Repr

/-- The reason given to the server. -/
def Stopped.reason : Stopped → String
  | .cancelled => "cancelled"
  | .timedOut => "timed out"

/-- What arrives for a request. -/
inductive Answer where
  | result (value : Json)
  | error (description : String)
  /-- The responder was dropped: the connection ended. -/
  | transportClosed

/-- How far a request is. -/
inductive Phase where
  /-- Awaits `send_request_with_option`. -/
  | sending
  /-- Awaits the first of the response, the token and the deadline. -/
  | waiting
  /-- Awaits the cancellation notice, for a second at most. -/
  | noticing (stopped : Stopped)
  /-- A call that sent nothing. -/
  | refused (error : String)
  /-- The request could not be sent. -/
  | unsent (description : String)
  | answered (answer : Answer)
  | stopped (stopped : Stopped)
  /-- The future was dropped, with this notice on its way. -/
  | dropped (notice : Option Stopped)

structure Request where
  token : Nat
  deadline : Nat
  phase : Phase
  /-- What its responder got first. -/
  delivered : Option Answer

structure State where
  tokens : Tokens.Tree
  now : Nat
  requests : List Request
  /-- The notices started, as the request and the reason. -/
  notices : List (Nat × String)

inductive Label where
  /-- A child of a token. -/
  | token (parent : Nat)
  | cancel (token : Nat)
  | pass (time : Nat)
  /-- A tool call, whose request is sent unless it is refused. -/
  | call (input : Json) (token deadline : Nat)
  /-- Another request. -/
  | request (token deadline : Nat)
  /-- The request is handed to the connection, or fails to be. -/
  | sent (id : Nat) (error : Option String)
  | answer (id : Nat) (answer : Answer)
  | poll (id : Nat)
  /-- The notice is sent, or takes too long. -/
  | noticed (id : Nat)
  /-- The future is dropped, inside a runtime or not. -/
  | drop (id : Nat) (runtime : Bool)

/-- The first checks of a call. -/
def firstCheck (tokens : Tokens.Tree) (input : Json) (token : Nat) : Phase :=
  match input with
  | .object _ => if tokens.isCancelled token then .refused "cancelled" else .sending
  | _ => .refused "tool input must be a JSON object"

/-- The `select!`, which looks at its branches in order. -/
def Request.select (request : Request) (tokens : Tokens.Tree) (now : Nat) :
    Option (Answer ⊕ Stopped) :=
  match request.delivered with
  | some answer => some (.inl answer)
  | none =>
    if tokens.isCancelled request.token then some (.inr .cancelled)
    else if request.deadline ≤ now then some (.inr .timedOut)
    else none

/-- The state with another phase of a request. -/
def State.put (s : State) (id : Nat) (request : Request) (phase : Phase) : State :=
  { s with requests := s.requests.set id { request with phase } }

/-- A notice for a request starts. -/
def State.notify (s : State) (id : Nat) (stopped : Stopped) : State :=
  { s with notices := s.notices ++ [(id, stopped.reason)] }

def State.step (s : State) : Label → Option State
  | .token parent =>
    if h : parent < s.tokens.parents.length then
      some { s with tokens := s.tokens.add (some parent) fun _ hp => Option.some.inj hp ▸ h }
    else none
  | .cancel token => some { s with tokens := s.tokens.cancel token }
  | .pass time => some { s with now := s.now + time }
  | .call input token deadline =>
    if token < s.tokens.parents.length then
      some { s with
        requests := s.requests ++ [⟨token, deadline, firstCheck s.tokens input token, none⟩] }
    else none
  | .request token deadline =>
    if token < s.tokens.parents.length then
      some { s with requests := s.requests ++ [⟨token, deadline, .sending, none⟩] }
    else none
  | .sent id error => do
    let request ← s.requests[id]?
    match request.phase with
    | .sending =>
      some (s.put id request (match error with
        | none => .waiting
        | some description => .unsent description))
    | _ => none
  | .answer id answer => do
    let request ← s.requests[id]?
    match request.phase, request.delivered with
    | .waiting, none =>
      some { s with requests := s.requests.set id { request with delivered := some answer } }
    | _, _ => none
  | .poll id => do
    let request ← s.requests[id]?
    match request.phase with
    | .waiting =>
      match request.select s.tokens s.now with
      | some (.inl answer) => some (s.put id request (.answered answer))
      | some (.inr stopped) => some ((s.put id request (.noticing stopped)).notify id stopped)
      | none => none
    | _ => none
  | .noticed id => do
    let request ← s.requests[id]?
    match request.phase with
    | .noticing stopped => some (s.put id request (.stopped stopped))
    | _ => none
  | .drop id runtime => do
    let request ← s.requests[id]?
    match request.phase with
    | .sending => some (s.put id request (.dropped none))
    -- the handle is still there, and a runtime sends its notice
    | .waiting =>
      if runtime then
        some ((s.put id request (.dropped (some .cancelled))).notify id .cancelled)
      else some (s.put id request (.dropped none))
    | .noticing stopped => some (s.put id request (.dropped (some stopped)))
    | _ => none

def system : LTS.System State Label := ⟨⟨.root, 0, [], []⟩, State.step⟩

/-! ### What a step does -/

/-- Whether a request can be given up for a reason. -/
def Stopped.Justified (tokens : Tokens.Tree) (now : Nat) (request : Request) : Stopped → Prop
  | .cancelled => tokens.isCancelled request.token = true
  | .timedOut => request.deadline ≤ now

/-- What a step makes of one request, and the notice that it starts. -/
inductive Change (tokens : Tokens.Tree) (now : Nat) (request : Request) :
    Request → Option Stopped → Prop where
  | sent (hphase : request.phase = .sending) :
      Change tokens now request { request with phase := .waiting } none
  | unsent (description : String) (hphase : request.phase = .sending) :
      Change tokens now request { request with phase := .unsent description } none
  | answer (answer : Answer) (hphase : request.phase = .waiting)
      (hfirst : request.delivered = none) :
      Change tokens now request { request with delivered := some answer } none
  | answered (answer : Answer) (hphase : request.phase = .waiting)
      (hanswer : request.delivered = some answer) :
      Change tokens now request { request with phase := .answered answer } none
  | stop (why : Stopped) (hphase : request.phase = .waiting) (hnone : request.delivered = none)
      (hwhy : why.Justified tokens now request) :
      Change tokens now request { request with phase := .noticing why } (some why)
  | noticed (why : Stopped) (hphase : request.phase = .noticing why) :
      Change tokens now request { request with phase := .stopped why } none
  | dropSending (hphase : request.phase = .sending) :
      Change tokens now request { request with phase := .dropped none } none
  | dropWaiting (notice : Option Stopped) (hphase : request.phase = .waiting) :
      Change tokens now request { request with phase := .dropped notice } notice
  | dropNoticing (why : Stopped) (hphase : request.phase = .noticing why) :
      Change tokens now request { request with phase := .dropped (some why) } none

/-- The steps of the system. -/
inductive Moves (s : State) : State → Prop where
  | grow (tokens : Tokens.Tree) (now : Nat) (htokens : s.tokens.Grows tokens) (hnow : s.now ≤ now) :
      Moves s { s with tokens, now }
  | join (request : Request) (htoken : request.token < s.tokens.parents.length)
      (hphase : request.phase = .sending ∨ ∃ error, request.phase = .refused error)
      (hnone : request.delivered = none) :
      Moves s { s with requests := s.requests ++ [request] }
  | change (id : Nat) (request next : Request) (notice : Option Stopped)
      (hget : s.requests[id]? = some request)
      (hchange : Change s.tokens s.now request next notice) :
      Moves s { s with
        requests := s.requests.set id next
        notices := s.notices ++ (notice.map fun why => (id, why.reason)).toList }

/-- A change without a notice. -/
theorem Moves.put {s : State} {id : Nat} {request : Request} {phase : Phase}
    (hget : s.requests[id]? = some request)
    (hchange : Change s.tokens s.now request { request with phase } none) :
    Moves s (s.put id request phase) := by
  have h := Moves.change id request _ none hget hchange
  rw [Option.map_none, Option.toList_none, List.append_nil] at h
  exact h

theorem select_some {request : Request} {tokens : Tokens.Tree} {now : Nat}
    {outcome : Answer ⊕ Stopped}
    (h : request.select tokens now = some outcome) :
    (∃ answer, outcome = .inl answer ∧ request.delivered = some answer) ∨
      ∃ why, outcome = .inr why ∧ request.delivered = none ∧
        Stopped.Justified tokens now request why := by
  unfold Request.select at h
  split at h
  next answer hanswer =>
    obtain rfl := Option.some.inj h
    exact .inl ⟨answer, rfl, hanswer⟩
  next hnone =>
    right
    by_cases hcancelled : tokens.isCancelled request.token = true
    · rw [if_pos hcancelled] at h
      obtain rfl := Option.some.inj h
      exact ⟨.cancelled, rfl, hnone, hcancelled⟩
    rw [if_neg hcancelled] at h
    by_cases hlate : request.deadline ≤ now
    · rw [if_pos hlate] at h
      obtain rfl := Option.some.inj h
      exact ⟨.timedOut, rfl, hnone, hlate⟩
    · rw [if_neg hlate] at h
      cases h

theorem admit_cases (tokens : Tokens.Tree) (input : Json) (token : Nat) :
    firstCheck tokens input token = .sending ∨
      ∃ error, firstCheck tokens input token = .refused error := by
  unfold firstCheck
  split
  · split
    · exact .inr ⟨_, rfl⟩
    · exact .inl rfl
  · exact .inr ⟨_, rfl⟩

theorem moves {s t : State} {l : Label} (h : system.step s l = some t) : Moves s t := by
  change s.step l = some t at h
  cases l with
  | token parent =>
    simp only [State.step] at h
    split at h
    next hparent =>
      obtain rfl := Option.some.inj h
      exact .grow _ s.now (s.tokens.grows_add _ _) (Nat.le_refl _)
    next => cases h
  | cancel token =>
    obtain rfl := Option.some.inj h
    exact .grow _ s.now (s.tokens.grows_cancel token) (Nat.le_refl _)
  | pass time =>
    obtain rfl := Option.some.inj h
    exact .grow s.tokens _ (.refl _) (Nat.le_add_right _ _)
  | call input token deadline =>
    obtain ⟨htoken, hnext⟩ := Option.ite_none_right_eq_some.mp h
    obtain rfl := Option.some.inj hnext
    exact .join _ htoken (admit_cases s.tokens input token) rfl
  | request token deadline =>
    obtain ⟨htoken, hnext⟩ := Option.ite_none_right_eq_some.mp h
    obtain rfl := Option.some.inj hnext
    exact .join _ htoken (.inl rfl) rfl
  | sent id error =>
    obtain ⟨request, hget, hnext⟩ := Option.bind_eq_some_iff.mp h
    split at hnext
    next hphase =>
      obtain rfl := Option.some.inj hnext
      cases error with
      | none => exact .put hget (.sent hphase)
      | some description => exact .put hget (.unsent description hphase)
    next => cases hnext
  | answer id answer =>
    obtain ⟨request, hget, hnext⟩ := Option.bind_eq_some_iff.mp h
    split at hnext
    next hphase hfirst =>
      obtain rfl := Option.some.inj hnext
      have hmove := Moves.change id request _ none hget (.answer answer hphase hfirst)
      rw [Option.map_none, Option.toList_none, List.append_nil] at hmove
      exact hmove
    next => cases hnext
  | poll id =>
    obtain ⟨request, hget, hnext⟩ := Option.bind_eq_some_iff.mp h
    split at hnext
    next hphase =>
      cases hend : request.select s.tokens s.now with
      | none =>
        rw [hend] at hnext
        cases hnext
      | some outcome =>
        rw [hend] at hnext
        rcases select_some hend with ⟨answer, rfl, hanswer⟩ | ⟨why, rfl, hnone, hwhy⟩
        · obtain rfl := Option.some.inj hnext
          exact .put hget (.answered answer hphase hanswer)
        · obtain rfl := Option.some.inj hnext
          exact .change id request _ (some why) hget (.stop why hphase hnone hwhy)
    next => cases hnext
  | noticed id =>
    obtain ⟨request, hget, hnext⟩ := Option.bind_eq_some_iff.mp h
    split at hnext
    next why hphase =>
      obtain rfl := Option.some.inj hnext
      exact .put hget (.noticed why hphase)
    next => cases hnext
  | drop id runtime =>
    obtain ⟨request, hget, hnext⟩ := Option.bind_eq_some_iff.mp h
    split at hnext
    next hphase =>
      obtain rfl := Option.some.inj hnext
      exact .put hget (.dropSending hphase)
    next hphase =>
      cases runtime with
      | true =>
        obtain rfl := Option.some.inj hnext
        exact .change id request _ (some .cancelled) hget (.dropWaiting (some .cancelled) hphase)
      | false =>
        obtain rfl := Option.some.inj hnext
        exact .put hget (.dropWaiting none hphase)
    next why hphase =>
      obtain rfl := Option.some.inj hnext
      exact .put hget (.dropNoticing why hphase)
    next => cases hnext

/-! ### What is true of a request -/

/-- The notice that a request has led to. -/
def Phase.notice : Phase → Option Stopped
  | .noticing why => some why
  | .stopped why => some why
  | .dropped notice => notice
  | _ => none

/-- The reasons of the notices for a request. -/
def State.noticesOf (s : State) (id : Nat) : List String :=
  (s.notices.filter fun notice => notice.1 == id).map Prod.snd

/-- What is true of a request, the notices for it and what it may be given up for. -/
structure Settled (notices : List String) (tokens : Tokens.Tree) (now : Nat) (request : Request) :
    Prop where
  token : request.token < tokens.parents.length
  /-- The notices for it are the one its phase says, if any. -/
  notices : notices = (request.phase.notice.map Stopped.reason).toList
  /-- It returns the answer that arrived first. -/
  answered : ∀ answer, request.phase = .answered answer → request.delivered = some answer
  /-- It is given up for a reason that is there, and without an answer. -/
  stopped : ∀ why, request.phase = .noticing why ∨ request.phase = .stopped why →
    request.delivered = none ∧ why.Justified tokens now request

section

variable {notices : List String} {tokens tokens' : Tokens.Tree} {now now' : Nat}
  {request next : Request} {notice : Option Stopped} {s t : State}

/-- A reason that is there stays. -/
theorem Stopped.Justified.grow {why : Stopped} (h : why.Justified tokens now request)
    (htoken : request.token < tokens.parents.length) (htokens : tokens.Grows tokens')
    (hnow : now ≤ now') : why.Justified tokens' now' request := by
  cases why with
  | cancelled => exact htokens.isCancelled htoken h
  | timedOut => exact Nat.le_trans h hnow

theorem Settled.grow (h : Settled notices tokens now request) (htokens : tokens.Grows tokens')
    (hnow : now ≤ now') : Settled notices tokens' now' request where
  token := Nat.lt_of_lt_of_le h.token htokens.length_le
  notices := h.notices
  answered := h.answered
  stopped := by
    intro why hphase
    obtain ⟨hnone, hwhy⟩ := h.stopped why hphase
    exact ⟨hnone, hwhy.grow h.token htokens hnow⟩

/-- A phase that is no answer and no giving up needs its notices only. -/
theorem Settled.put (h : Settled notices tokens now request) {phase : Phase}
    {started : List String} (hnotices : started = (phase.notice.map Stopped.reason).toList)
    (hanswered : ∀ answer, phase ≠ .answered answer)
    (hstopped : ∀ why, phase ≠ .noticing why ∧ phase ≠ .stopped why) :
    Settled started tokens now { request with phase } where
  token := h.token
  notices := hnotices
  answered := fun answer hsame => absurd hsame (hanswered answer)
  stopped := fun why hsame =>
    hsame.elim (absurd · (hstopped why).1) (absurd · (hstopped why).2)

/-- A request that is given up needs a reason and no answer. -/
theorem Settled.giveUp (h : Settled notices tokens now request) {phase : Phase} {why : Stopped}
    (hphase : phase = .noticing why ∨ phase = .stopped why) (hnone : request.delivered = none)
    (hwhy : why.Justified tokens now request) :
    Settled [why.reason] tokens now { request with phase } where
  token := h.token
  notices := by
    show [why.reason] = (phase.notice.map Stopped.reason).toList
    rcases hphase with rfl | rfl <;> rfl
  answered := by
    intro answer hsame
    change phase = .answered answer at hsame
    rcases hphase with rfl | rfl <;> cases hsame
  stopped := by
    intro other hsame
    change phase = .noticing other ∨ phase = .stopped other at hsame
    have hother : other = why := by
      rcases hphase with rfl | rfl <;> rcases hsame with hsame | hsame <;> cases hsame <;> rfl
    rw [hother]
    exact ⟨hnone, by cases why <;> exact hwhy⟩

/-- What is true of a request stays true through every change. -/
theorem Settled.change (h : Settled notices tokens now request)
    (hchange : Change tokens now request next notice) :
    Settled (notices ++ (notice.map Stopped.reason).toList) tokens now next := by
  have hnotices := h.notices
  cases hchange with
  | sent hphase =>
    rw [hphase] at hnotices
    exact h.put (by rw [hnotices]; rfl) (fun _ => Phase.noConfusion)
      fun _ => ⟨Phase.noConfusion, Phase.noConfusion⟩
  | unsent description hphase =>
    rw [hphase] at hnotices
    exact h.put (by rw [hnotices]; rfl) (fun _ => Phase.noConfusion)
      fun _ => ⟨Phase.noConfusion, Phase.noConfusion⟩
  | answer answer hphase hfirst =>
    refine ⟨h.token, ?_, fun _ hsame => ?_, fun _ hsame => ?_⟩
    · rw [Option.map_none, Option.toList_none, List.append_nil]
      exact hnotices
    -- it is still waiting
    · cases hphase.symm.trans hsame
    · rcases hsame with hsame | hsame <;> cases hphase.symm.trans hsame
  | answered answer hphase hanswer =>
    rw [hphase] at hnotices
    refine ⟨h.token, by rw [hnotices]; rfl, fun _ hsame => ?_, fun _ hsame => ?_⟩
    · rw [Phase.answered.inj hsame] at hanswer
      exact hanswer
    · rcases hsame with hsame | hsame <;> cases hsame
  | stop why hphase hnone hwhy =>
    rw [hphase] at hnotices
    rw [hnotices]
    exact h.giveUp (.inl rfl) hnone hwhy
  | noticed why hphase =>
    obtain ⟨hnone, hwhy⟩ := h.stopped why (.inl hphase)
    rw [hphase] at hnotices
    rw [hnotices]
    exact h.giveUp (.inr rfl) hnone hwhy
  | dropSending hphase =>
    rw [hphase] at hnotices
    exact h.put (by rw [hnotices]; rfl) (fun _ => Phase.noConfusion)
      fun _ => ⟨Phase.noConfusion, Phase.noConfusion⟩
  | dropWaiting _ hphase =>
    rw [hphase] at hnotices
    exact h.put (by rw [hnotices]; rfl) (fun _ => Phase.noConfusion)
      fun _ => ⟨Phase.noConfusion, Phase.noConfusion⟩
  | dropNoticing why hphase =>
    rw [hphase] at hnotices
    exact h.put (by rw [hnotices]; rfl) (fun _ => Phase.noConfusion)
      fun _ => ⟨Phase.noConfusion, Phase.noConfusion⟩

/-! ### In every interleaving -/

theorem noticesOf_append (s : State) (id other : Nat) (notice : Option Stopped) :
    ((s.notices ++ (notice.map fun why => (other, why.reason)).toList).filter
        fun started => started.1 == id).map Prod.snd =
      s.noticesOf id ++ if other = id then (notice.map Stopped.reason).toList else [] := by
  rw [List.filter_append, List.map_append, State.noticesOf]
  congr 1
  cases notice with
  | none => simp
  | some why =>
    by_cases hsame : other = id
    · simp [hsame]
    · simp [hsame]

/-- Every request is settled, and there are notices for requests only. -/
structure Invariant (s : State) : Prop where
  settled : ∀ id request, s.requests[id]? = some request →
    Settled (s.noticesOf id) s.tokens s.now request
  known : ∀ notice ∈ s.notices, notice.1 < s.requests.length

theorem invariant_step (h : Invariant s) (hmove : Moves s t) : Invariant t := by
  cases hmove with
  | grow tokens now htokens hnow =>
    refine ⟨fun id request hget => ?_, h.known⟩
    exact (h.settled id request hget).grow htokens hnow
  | join request htoken hphase hnone =>
    refine ⟨fun id other hget => ?_, fun notice hnotice => ?_⟩
    · rcases Pool.getElem?_snoc hget with hold | ⟨rfl, rfl⟩
      · exact h.settled id other hold
      · have hempty : s.noticesOf s.requests.length = [] := by
          rw [State.noticesOf, List.filter_eq_nil_iff.mpr, List.map_nil]
          intro notice hnotice hsame
          exact absurd (h.known notice hnotice) (by rw [beq_iff_eq.mp hsame]; exact Nat.lt_irrefl _)
        refine ⟨htoken, ?_, fun answer hanswer => ?_, fun why hwhy => ?_⟩
        · show s.noticesOf s.requests.length = _
          rcases hphase with hphase | ⟨error, hphase⟩ <;> rw [hempty, hphase] <;> rfl
        · rcases hphase with hphase | ⟨error, hphase⟩ <;> cases hphase.symm.trans hanswer
        · rcases hphase with hphase | ⟨error, hphase⟩ <;> rcases hwhy with hwhy | hwhy <;>
            cases hphase.symm.trans hwhy
    · rw [List.length_append, List.length_singleton]
      exact Nat.lt_succ_of_lt (h.known notice hnotice)
  | change id request next notice hget hchange =>
    refine ⟨fun other found hfound => ?_, fun started hstarted => ?_⟩
    · show Settled (((s.notices ++ (notice.map fun why => (id, why.reason)).toList).filter
        fun started => started.1 == other).map Prod.snd) s.tokens s.now found
      rw [noticesOf_append]
      rcases Pool.getElem?_set_cases hget hfound with ⟨hne, hold⟩ | ⟨rfl, rfl⟩
      · rw [if_neg hne, List.append_nil]
        exact h.settled other found hold
      · rw [if_pos rfl]
        exact (h.settled id request hget).change hchange
    · rw [List.length_set]
      rcases List.mem_append.mp hstarted with hold | hnew
      · exact h.known started hold
      · obtain ⟨why, -, rfl⟩ := Option.map_eq_some_iff.mp (Option.mem_toList.mp hnew)
        exact (List.getElem?_eq_some_iff.mp hget).1

end

end Kyora.Mcp.InFlight
