import Kyora.Conversation.Requests

/-! # Turn accounting

  The turn counter is the number of assistant messages in the history, and it stays
  within the cap. A response can be discarded once for each turn, so the requests are
  bounded too. Messages are only taken from the mailbox where another request follows,
  which carries them.
-/

namespace Kyora.Conversation

open Mailbox (Batch)

/-! ### Counting -/

/-- The assistant messages of a history. -/
def replies (history : List Message) : Nat := history.countP fun m => m.role == .assistant

theorem replies_append (history : List Message) (m : Message) :
    replies (history ++ [m]) = replies history + if m.role = .assistant then 1 else 0 := by
  unfold replies
  rw [List.countP_append, List.countP_singleton]
  simp

/-- A message of the user is not counted. -/
theorem replies_user {history : List Message} {m : Message} (hrole : m.role = .user) :
    replies (history ++ [m]) = replies history := by
  rw [replies_append, hrole]
  rfl

theorem userTurn_role (cfg : Config) (content : List ContentBlock) (deliverable : Bool)
    (batch : Batch) : (userTurn cfg content deliverable batch).role = .user := by
  unfold userTurn
  split
  · rfl
  · rfl

/-- One request may be unanswered, and one answer may have been discarded. -/
def State.spare (s : State) : Nat :=
  s.invalidRetry.toNat + match s.pc with
    | .opening | .head | .tools _ | .deciding _ | .idling _ => 0
    | .requesting _ | .ended _ | .aborted => 1

/-- What the counters of the loop say about its history and its requests. -/
structure Accounted (cfg : Config) (s : State) : Prop where
  counted : s.turns = replies s.history
  capped : s.turns ≤ cfg.maxTurns
  fresh : s.pc = .opening → s.turns = 0
  /-- A response is asked for only below the cap. -/
  asking : ∀ sent, s.pc = .requesting sent → s.turns < cfg.maxTurns
  idling : ∀ m, s.pc = .idling m → s.turns < cfg.maxTurns
  retrying : s.invalidRetry = true → s.turns < cfg.maxTurns
  spent : s.requests.length ≤ 2 * s.turns + s.spare
  attempted : s.requests.length ≤ 2 * cfg.maxTurns

theorem accounted_init (cfg : Config) : Accounted cfg (conversation cfg).init where
  counted := rfl
  capped := Nat.zero_le _
  fresh _ := rfl
  asking _ h := by cases h
  idling _ h := by cases h
  retrying h := by cases h
  spent := Nat.zero_le _
  attempted := Nat.zero_le _

section kept

variable {cfg : Config} {s : State}

/-- The loop ends where it stands. -/
theorem Accounted.ended (h : Accounted cfg s) (answer : Answer) {pc : Pc}
    (hpc : (∃ status, pc = .ended status) ∨ pc = .aborted) :
    Accounted cfg { s with answer, pc } := by
  have hspare : s.spare ≤ State.spare { s with answer, pc } := by
    unfold State.spare
    rcases hpc with ⟨status, rfl⟩ | rfl
    · show _ ≤ s.invalidRetry.toNat + 1
      cases s.pc <;> simp
    · show _ ≤ s.invalidRetry.toNat + 1
      cases s.pc <;> simp
  have hspent := h.spent
  refine ⟨h.counted, h.capped, ?_, ?_, ?_, h.retrying, ?_, h.attempted⟩
  · intro hopen
    rcases hpc with ⟨status, rfl⟩ | rfl
    · cases hopen
    · cases hopen
  · intro sent hasking
    rcases hpc with ⟨status, rfl⟩ | rfl
    · cases hasking
    · cases hasking
  · intro m hidling
    rcases hpc with ⟨status, rfl⟩ | rfl
    · cases hidling
    · cases hidling
  · show s.requests.length ≤ 2 * s.turns + State.spare { s with answer, pc }
    omega

/-- The loop goes on to a place where no request is unanswered. -/
theorem Accounted.moved (h : Accounted cfg s) {history : List Message} {reminded : Bool}
    {answer : Answer} {pc : Pc} (hbefore : s.spare = s.invalidRetry.toNat)
    (hcount : replies history = replies s.history)
    (hpc : pc = .head ∨ (∃ t, pc = .deciding t) ∨ (∃ t, pc = .tools t) ∨
      ∃ m, pc = .idling m ∧ s.turns < cfg.maxTurns) :
    Accounted cfg { s with history, reminded, answer, pc } := by
  have hspent := h.spent
  rw [hbefore] at hspent
  refine ⟨h.counted.trans hcount.symm, h.capped, ?_, ?_, ?_, h.retrying, ?_, h.attempted⟩
  · intro hopen
    rcases hpc with rfl | ⟨t, rfl⟩ | ⟨t, rfl⟩ | ⟨m, rfl, -⟩ <;> cases hopen
  · intro sent hasking
    rcases hpc with rfl | ⟨t, rfl⟩ | ⟨t, rfl⟩ | ⟨m, rfl, -⟩ <;> cases hasking
  · intro m' hidling
    rcases hpc with rfl | ⟨t, rfl⟩ | ⟨t, rfl⟩ | ⟨m, rfl, hturns⟩
    · cases hidling
    · cases hidling
    · cases hidling
    · exact hturns
  · rcases hpc with rfl | ⟨t, rfl⟩ | ⟨t, rfl⟩ | ⟨m, rfl, -⟩ <;> exact hspent

end kept

/-- Where no request is unanswered, only a discarded answer is spare. -/
theorem spare_of_quiet {s : State} (hpc : s.pc = .opening ∨ s.pc = .head ∨
    (∃ t, s.pc = .tools t) ∨ (∃ t, s.pc = .deciding t) ∨ ∃ m, s.pc = .idling m) :
    s.spare = s.invalidRetry.toNat := by
  unfold State.spare
  rcases hpc with hpc | hpc | ⟨t, hpc⟩ | ⟨t, hpc⟩ | ⟨m, hpc⟩ <;> rw [hpc] <;> rfl

/-- A request is unanswered. -/
theorem spare_of_asking {s : State} {sent : Nat} (hpc : s.pc = .requesting sent) :
    s.spare = s.invalidRetry.toNat + 1 := by
  unfold State.spare
  rw [hpc]

theorem Moves.accounted {cfg : Config} {s t : State} {l : Label} (h : Accounted cfg s)
    (hmove : Moves cfg s l t) : Accounted cfg t := by
  cases hmove with
  | opened batch hpc =>
    exact h.moved (spare_of_quiet (.inl hpc)) (replies_user (userTurn_role ..)) (.inl rfl)
  | stopped stop hpc => exact h.ended s.answer (.inl ⟨_, rfl⟩)
  | capped hpc hturns => exact h.ended s.answer (.inl ⟨_, rfl⟩)
  | requested hpc hturns =>
    have hspent := h.spent
    rw [spare_of_quiet (.inr (.inl hpc))] at hspent
    have hone := Bool.toNat_le s.invalidRetry
    refine ⟨h.counted, h.capped, ?_, fun _ _ => hturns, ?_, h.retrying, ?_, ?_⟩
    · intro hopen
      cases hopen
    · intro m hidling
      cases hidling
    · rw [spare_of_asking rfl, List.length_append, List.length_singleton]
      show s.requests.length + 1 ≤ 2 * s.turns + (s.invalidRetry.toNat + 1)
      omega
    · -- at most the last turn's answer was discarded
      rw [List.length_append, List.length_singleton]
      omega
  | failed error stop sent hpc => exact h.ended s.answer (.inl ⟨_, rfl⟩)
  | again sent response invalid hpc hretry =>
    have hspent := h.spent
    rw [spare_of_asking hpc, hretry.2.2] at hspent
    refine ⟨h.counted, h.capped, ?_, ?_, ?_, fun _ => h.asking sent hpc, hspent, h.attempted⟩
    · intro hopen
      cases hopen
    · intro sent' hasking
      cases hasking
    · intro m hidling
      cases hidling
  | recorded sent response invalid hpc hretry =>
    have hspent := h.spent
    rw [spare_of_asking hpc] at hspent
    have hone := Bool.toNat_le s.invalidRetry
    have hturns := h.asking sent hpc
    refine ⟨?_, hturns, ?_, ?_, ?_, ?_, ?_, h.attempted⟩
    · show s.turns + 1 = replies (s.history ++ [assistantOf cfg response invalid])
      rw [replies_append, ← h.counted]
      rfl
    · intro hopen
      cases hopen
    · intro sent' hasking
      cases hasking
    · intro m hidling
      cases hidling
    · intro hretrying
      cases hretrying
    · show s.requests.length ≤ 2 * (s.turns + 1) + 0
      omega
  | answered u use pending stop output late result whole hpc hpending houtput =>
    exact h.moved (spare_of_quiet (.inr (.inr (.inl ⟨u, hpc⟩)))) rfl (.inr (.inr (.inl ⟨_, rfl⟩)))
  | resultless u stop batch hpc hpending hresults =>
    exact h.moved (spare_of_quiet (.inr (.inr (.inl ⟨u, hpc⟩)))) rfl (.inr (.inl ⟨_, rfl⟩))
  | resulted u stop batch hpc hpending hresults =>
    exact h.moved (spare_of_quiet (.inr (.inr (.inl ⟨u, hpc⟩))))
      (replies_user (userTurn_role ..)) (.inr (.inl ⟨_, rfl⟩))
  | completed u value stop batch hpc hanswer => exact h.ended value (.inl ⟨_, rfl⟩)
  | overtaken u stop batch hpc hanswer => exact h.ended s.answer (.inl ⟨_, rfl⟩)
  | wentOn u batch hpc hanswer hstop =>
    exact h.moved (spare_of_quiet (.inr (.inr (.inr (.inl ⟨u, hpc⟩))))) rfl (.inl rfl)
  | outOfTurns u batch hpc hanswer hstop hturns => exact h.ended _ (.inl ⟨_, rfl⟩)
  | waiting u batch hpc hanswer hstop hturns =>
    exact h.moved (spare_of_quiet (.inr (.inr (.inr (.inl ⟨u, hpc⟩))))) rfl
      (.inr (.inr (.inr ⟨_, rfl, hturns⟩)))
  | continued u batch hpc hanswer hstop hresults =>
    exact h.moved (spare_of_quiet (.inr (.inr (.inr (.inl ⟨u, hpc⟩)))))
      (replies_user (userTurn_role ..)) (.inl rfl)
  | gaveUp u batch status hpc hanswer hstatus => exact h.ended s.answer (.inl ⟨_, rfl⟩)
  | woken assistant found stop batch hpc =>
    exact h.moved (spare_of_quiet (.inr (.inr (.inr (.inr ⟨assistant, hpc⟩)))))
      (replies_user rfl) (.inl rfl)
  | idleStopped assistant stop batch hpc => exact h.ended s.answer (.inl ⟨_, rfl⟩)
  | idleCompleted assistant batch hpc houtput => exact h.ended s.answer (.inl ⟨_, rfl⟩)
  | reminded assistant batch hpc houtput hfirst =>
    exact h.moved (spare_of_quiet (.inr (.inr (.inr (.inr ⟨assistant, hpc⟩)))))
      (replies_user (userTurn_role ..)) (.inl rfl)
  | unsubmitted assistant answer batch hpc houtput hagain => exact h.ended answer (.inl ⟨_, rfl⟩)
  | aborted hended hpc => exact h.ended s.answer (.inr rfl)

theorem accounted_of_reachable {cfg : Config} {s : State}
    (h : (conversation cfg).Reachable s) : Accounted cfg s :=
  LTS.System.invariant (accounted_init cfg)
    (fun _ _ _ hs _ hstep => (step_moves hstep).accounted hs) s h

/-! ### Discarded responses -/

/-- A response is discarded, to be asked for once more. -/
def Discards (cfg : Config) (s : State) (l : Label) (t : State) : Prop :=
  step cfg s l = some t ∧ ∃ response invalid, l = .responded response invalid ∧ t.pc = .head

theorem Discards.cases {cfg : Config} {s t : State} {l : Label} (h : Discards cfg s l t) :
    s.invalidRetry = false ∧ t.invalidRetry = true := by
  obtain ⟨hstep, response, invalid, rfl, hhead⟩ := h
  cases step_moves hstep with
  | again sent _ _ hpc hretry => exact ⟨hretry.2.2, rfl⟩
  | recorded => cases hhead

/-- Until the next turn is counted, an earlier answer stays discarded. -/
theorem Moves.retrying {cfg : Config} {s t : State} {l : Label} (hmove : Moves cfg s l t) :
    (t.turns = s.turns ∧ (s.invalidRetry = true → t.invalidRetry = true)) ∨
      s.turns < t.turns := by
  cases hmove with
  | again => exact .inl ⟨rfl, fun _ => rfl⟩
  | recorded => exact .inr (Nat.lt_succ_self _)
  | _ => exact .inl ⟨rfl, id⟩

/-- Between two discarded responses a turn is counted. -/
theorem discard_once {cfg : Config} {s t u v : State} {l l' : Label} {ls : List Label}
    (hfirst : Discards cfg s l t) (hrun : (conversation cfg).run t ls = some u)
    (hagain : Discards cfg u l' v) : t.turns < u.turns := by
  have hkept : ∀ r k r', (r.turns = t.turns ∧ r.invalidRetry = true ∨ t.turns < r.turns) →
      (conversation cfg).step r k = some r' →
      r'.turns = t.turns ∧ r'.invalidRetry = true ∨ t.turns < r'.turns := by
    intro r k r' hr hstep
    rcases hr with ⟨hturns, hretry⟩ | hlt
    · rcases (step_moves hstep).retrying with ⟨hsame, hkeep⟩ | hcount
      · exact .inl ⟨hsame.trans hturns, hkeep hretry⟩
      · exact .inr (hturns ▸ hcount)
    · rcases (step_moves hstep).retrying with ⟨hsame, -⟩ | hcount
      · exact .inr (hsame ▸ hlt)
      · exact .inr (Nat.lt_trans hlt hcount)
  have hend := (conversation cfg).run_invariant hkept (.inl ⟨rfl, hfirst.cases.2⟩) hrun
  rcases hend with ⟨-, hretry⟩ | hlt
  · rw [hagain.cases.1] at hretry
    cases hretry
  · exact hlt

/-! ### Deliveries at a turn boundary -/

/-- What a step takes from the mailbox at a turn boundary: with the task, the tool
    results, a `continue` or the reminder, or when the wait at the end of a turn is
    over. -/
def taking (cfg : Config) (s : State) : Label → Option Batch
  | .opened batch => some batch
  | .results stop batch =>
    match s.pc with
    | .tools t => if !t.results.isEmpty && deliverable cfg s t stop then some batch else none
    | _ => none
  | .decide stop batch =>
    match s.pc with
    | .deciding t =>
      if t.finalAnswer.isNone && stop.isNone && t.stopReason == .maxTokens &&
          t.results.isEmpty && s.turns < cfg.maxTurns then some batch
      else none
    | _ => none
  | .idled (some found) _ _ => some found
  | .idled none stop batch =>
    if stop.isNone && cfg.output.isSome && !s.reminded then some batch else none
  | _ => none

/-- The loop is bound for another request. -/
inductive Bound (cfg : Config) (s : State) : Prop where
  | head (hpc : s.pc = .head) (hturns : s.turns < cfg.maxTurns)
  | deciding (t : Turn) (hpc : s.pc = .deciding t) (hanswer : t.finalAnswer = none)
      (hstop : t.stopReason = .toolUse ∨ t.stopReason = .pauseTurn ∨
        t.stopReason = .maxTokens ∧ t.results ≠ [])
      (hturns : s.turns < cfg.maxTurns)

/-- A message that ends with what was taken. -/
def Carries (cfg : Config) (batch : Batch) (m : Message) : Prop :=
  m.role = .user ∧ ∀ e ∈ batch.taken, .text (cfg.render e) ∈ m.content

theorem carries_deliver (cfg : Config) (content : List ContentBlock) (batch : Batch) :
    Carries cfg batch (deliver cfg content batch) := by
  refine ⟨rfl, fun e he => ?_⟩
  refine List.mem_append_left _ (List.mem_append_right _ ?_)
  exact List.mem_map_of_mem he

theorem carries_userTurn (cfg : Config) (content : List ContentBlock) (batch : Batch) :
    Carries cfg batch (userTurn cfg content true batch) := by
  unfold userTurn
  split
  · exact carries_deliver cfg content batch
  · next hnone =>
    refine ⟨rfl, fun e he => ?_⟩
    simp only [Bool.true_and, Bool.or_eq_true, Bool.not_eq_true', List.isEmpty_eq_false_iff,
      decide_eq_true_eq, not_or] at hnone
    rw [not_not.mp hnone.1] at he
    cases he

theorem continues_cases {r : StopReason} (h : continues r = true) :
    r = .toolUse ∨ r = .pauseTurn ∨ r = .maxTokens := by
  cases r with
  | toolUse => exact .inl rfl
  | pauseTurn => exact .inr (.inl rfl)
  | maxTokens => exact .inr (.inr rfl)
  | _ => cases h

/-- Messages are only taken where the loop is bound for another request. -/
theorem bound_of_taking {cfg : Config} {s t : State} {l : Label} {batch : Batch}
    (h : Accounted cfg s) (hpos : 0 < cfg.maxTurns) (hstep : step cfg s l = some t)
    (htaking : taking cfg s l = some batch) :
    Bound cfg t ∧ t.requests = s.requests ∧
      ∃ m, t.history = s.history ++ [m] ∧ Carries cfg batch m := by
  cases step_moves hstep with
  | opened batch' hpc =>
    obtain rfl := Option.some.inj htaking
    refine ⟨.head rfl ?_, rfl, _, rfl, carries_userTurn cfg _ _⟩
    show s.turns < cfg.maxTurns
    rw [h.fresh hpc]
    exact hpos
  | resultless u stop batch' hpc hpending hresults =>
    simp only [taking, hpc, hresults, List.isEmpty_nil, Bool.not_true, Bool.false_and,
      Bool.false_eq_true, if_false] at htaking
    cases htaking
  | resulted u stop batch' hpc hpending hresults =>
    simp only [taking, hpc] at htaking
    by_cases hdeliver : deliverable cfg s u stop = true
    · have hsome : (!u.results.isEmpty) = true := by simpa using hresults
      rw [hdeliver, hsome, Bool.and_self, if_pos rfl] at htaking
      obtain rfl := Option.some.inj htaking
      rw [hdeliver]
      simp only [deliverable, Bool.and_eq_true, Option.isNone_iff_eq_none,
        decide_eq_true_eq] at hdeliver
      obtain ⟨⟨⟨hanswer, -⟩, hturns⟩, hcontinues⟩ := hdeliver
      refine ⟨.deciding u rfl hanswer ?_ hturns, rfl, _, rfl, carries_userTurn cfg _ _⟩
      exact (continues_cases hcontinues).imp_right (Or.imp_right fun hmax => ⟨hmax, hresults⟩)
    · simp only [hdeliver, Bool.and_false, Bool.false_eq_true, if_false] at htaking
      cases htaking
  | completed u value stop batch' hpc hanswer =>
    simp [taking, hpc, hanswer] at htaking
  | overtaken u stop batch' hpc hanswer =>
    simp [taking, hpc] at htaking
  | wentOn u batch' hpc hanswer hstop =>
    rcases hstop with hstop | hstop | ⟨hstop, hresults⟩
    · simp [taking, hpc, hstop] at htaking
    · simp [taking, hpc, hstop] at htaking
    · simp [taking, hpc, hresults] at htaking
  | outOfTurns u batch' hpc hanswer hstop hturns => simp [taking, hpc, hstop] at htaking
  | waiting u batch' hpc hanswer hstop hturns => simp [taking, hpc, hstop] at htaking
  | continued u batch' hpc hanswer hstop hresults =>
    simp only [taking, hpc, hanswer, hstop, hresults, Option.isNone_none, Bool.true_and,
      List.isEmpty_nil, BEq.rfl] at htaking
    by_cases hturns : s.turns < cfg.maxTurns
    · rw [decide_eq_true hturns, if_pos rfl] at htaking
      obtain rfl := Option.some.inj htaking
      refine ⟨.head rfl hturns, rfl, _, rfl, ?_⟩
      rw [decide_eq_true hturns]
      exact carries_userTurn cfg _ _
    · rw [decide_eq_false hturns, if_neg Bool.false_ne_true] at htaking
      cases htaking
  | gaveUp u batch' status hpc hanswer hstatus =>
    -- Only a `max_tokens` stop takes messages here, and it goes on.
    simp only [taking, hpc, Option.ite_none_right_eq_some, Bool.and_eq_true, beq_iff_eq,
      List.isEmpty_iff] at htaking
    obtain ⟨⟨⟨⟨-, hmax⟩, hresults⟩, -⟩, -⟩ := htaking
    simp only [step, hpc, stepDecide, hanswer, hmax, hresults, List.isEmpty_nil, if_true,
      Option.some.injEq] at hstep
    have hpcs := congrArg State.pc hstep
    cases hpcs
  | woken assistant found stop batch' hpc =>
    obtain rfl := Option.some.inj htaking
    exact ⟨.head rfl (h.idling assistant hpc), rfl, _, rfl, carries_deliver cfg [] _⟩
  | idleStopped assistant stop batch' hpc => simp [taking] at htaking
  | idleCompleted assistant batch' hpc houtput => simp [taking, houtput] at htaking
  | reminded assistant batch' hpc houtput hfirst =>
    simp only [taking, houtput, hfirst, Option.isNone_none, Bool.not_false, Bool.and_self,
      if_true] at htaking
    obtain rfl := Option.some.inj htaking
    exact ⟨.head rfl (h.idling assistant hpc), rfl, _, rfl, carries_userTurn cfg _ _⟩
  | unsubmitted assistant answer batch' hpc houtput hagain =>
    simp [taking, hagain] at htaking
  | _ => cases htaking

/-! ### The next request -/

theorem step_head {cfg : Config} {s t : State} {l : Label} (hpc : s.pc = .head)
    (hstep : step cfg s l = some t) (hl : l ≠ .abort) :
    ∃ stop, l = .request stop ∧ t = stepRequest cfg s stop := by
  cases l with
  | request stop =>
    simp only [step, hpc, Option.some.injEq] at hstep
    exact ⟨stop, rfl, hstep.symm⟩
  | abort => exact absurd rfl hl
  | _ =>
    simp only [step, hpc] at hstep
    cases hstep

theorem step_deciding {cfg : Config} {s t : State} {l : Label} {turn : Turn}
    (hpc : s.pc = .deciding turn) (hstep : step cfg s l = some t) (hl : l ≠ .abort) :
    ∃ stop batch, l = .decide stop batch ∧ t = stepDecide cfg s turn stop batch := by
  cases l with
  | decide stop batch =>
    simp only [step, hpc, Option.some.injEq] at hstep
    exact ⟨stop, batch, rfl, hstep.symm⟩
  | abort => exact absurd rfl hl
  | _ =>
    simp only [step, hpc] at hstep
    cases hstep

/-- Nothing follows the end of the loop. -/
theorem run_ended {cfg : Config} {s u : State} {ls : List Label} {status : Status}
    (hpc : s.pc = .ended status) (hrun : (conversation cfg).run s ls = some u) :
    ls = [] ∧ u = s := by
  cases ls with
  | nil => exact ⟨rfl, (Option.some.inj hrun).symm⟩
  | cons l ls =>
    obtain ⟨t, hstep, -⟩ := ((conversation cfg).run_cons).mp hrun
    have hnone : step cfg s l = none := by
      cases l <;> simp only [step, hpc]
    rw [show (conversation cfg).step s l = none from hnone] at hstep
    cases hstep

/-- A run has gone on with a request that carries the whole history, unless the node
    was found stopped first. -/
inductive Resumed (s : State) (ls : List Label) (u : State) : Prop where
  | requested (p : Prepared) (more : List Prepared)
      (hrequests : u.requests = s.requests ++ p :: more)
      (hmessages : p.request.messages = s.history)
  | stopped (stop : Stop) (hpc : u.pc = .ended stop.status)
      (hread : .request (some stop) ∈ ls ∨ ∃ batch, .decide (some stop) batch ∈ ls)

/-- How a run goes on when messages were taken. Within two steps it has gone on, and
    until then it is not stuck. -/
def Resumes (cfg : Config) (s : State) (ls : List Label) (u : State) : Prop :=
  Resumed s ls u ∨ ls.length < 2 ∧ u.history = s.history ∧ u.requests = s.requests ∧
    ∃ l v, l ≠ .abort ∧ step cfg u l = some v

/-- From the start of an iteration the next step decides. -/
theorem resumed_of_head {cfg : Config} {s u : State} {ls : List Label} (hpc : s.pc = .head)
    (hturns : s.turns < cfg.maxTurns) (hrun : (conversation cfg).run s ls = some u)
    (habort : .abort ∉ ls) : ls = [] ∧ u = s ∨ Resumed s ls u := by
  cases ls with
  | nil => exact .inl ⟨rfl, (Option.some.inj hrun).symm⟩
  | cons l ls =>
    right
    obtain ⟨t, hstep, hrest⟩ := ((conversation cfg).run_cons).mp hrun
    obtain ⟨hl, -⟩ := not_or.mp fun hmem => habort (List.mem_cons.mpr hmem)
    obtain ⟨stop, rfl, rfl⟩ := step_head hpc hstep (Ne.symm hl)
    cases stop with
    | some stop =>
      have hended : (stepRequest cfg s (some stop)).pc = .ended stop.status := rfl
      obtain ⟨rfl, rfl⟩ := run_ended hended hrest
      exact .stopped stop rfl (.inl List.mem_cons_self)
    | none =>
      have hasked : (stepRequest cfg s none).requests =
          s.requests ++ [⟨s.nextRequest cfg, s.previous⟩] := by
        rw [stepRequest, if_neg (Nat.not_le_of_lt hturns)]
      obtain ⟨more, hmore⟩ := (grows_of_run hrest).2
      rw [hasked, List.append_assoc] at hmore
      exact .requested _ more hmore.symm rfl

/-- The branch on the stop reason goes back to the start. -/
theorem stepDecide_bound {cfg : Config} {s : State} {turn : Turn} (batch : Batch)
    (hanswer : turn.finalAnswer = none)
    (hstop : turn.stopReason = .toolUse ∨ turn.stopReason = .pauseTurn ∨
      turn.stopReason = .maxTokens ∧ turn.results ≠ []) :
    stepDecide cfg s turn none batch = { s with pc := .head } := by
  rcases hstop with hstop | hstop | ⟨hstop, hresults⟩
  · simp only [stepDecide, hanswer, hstop]
  · simp only [stepDecide, hanswer, hstop]
  · have hsome : turn.results.isEmpty = false := List.isEmpty_eq_false_iff.mpr hresults
    simp only [stepDecide, hanswer, hstop, hsome, Bool.false_eq_true, if_false]

theorem Bound.resumes {cfg : Config} {s u : State} {ls : List Label} (h : Bound cfg s)
    (hrun : (conversation cfg).run s ls = some u) (habort : .abort ∉ ls) :
    Resumes cfg s ls u := by
  cases h with
  | head hpc hturns =>
    rcases resumed_of_head hpc hturns hrun habort with ⟨rfl, rfl⟩ | hresumed
    · refine .inr ⟨by decide, rfl, rfl, .request none, stepRequest cfg u none, ?_, ?_⟩
      · exact Label.noConfusion
      · simp only [step, hpc]
    · exact .inl hresumed
  | deciding turn hpc hanswer hstop hturns =>
    cases ls with
    | nil =>
      obtain rfl := Option.some.inj hrun
      refine .inr ⟨by decide, rfl, rfl, .decide none ⟨[], 0, 0⟩,
        stepDecide cfg s turn none ⟨[], 0, 0⟩, ?_, ?_⟩
      · exact Label.noConfusion
      · simp only [step, hpc]
    | cons l ls =>
      obtain ⟨t, hstep, hrest⟩ := ((conversation cfg).run_cons).mp hrun
      obtain ⟨hl, hnone⟩ := not_or.mp fun hmem => habort (List.mem_cons.mpr hmem)
      obtain ⟨stop, batch, rfl, rfl⟩ := step_deciding hpc hstep (Ne.symm hl)
      cases stop with
      | some stop =>
        have hended : (stepDecide cfg s turn (some stop) batch).pc = .ended stop.status := by
          simp only [stepDecide, hanswer]
        obtain ⟨rfl, rfl⟩ := run_ended hended hrest
        exact .inl (.stopped stop hended (.inr ⟨batch, List.mem_cons_self⟩))
      | none =>
        rw [stepDecide_bound batch hanswer hstop] at hrest
        have hback := @resumed_of_head cfg { s with pc := .head } u ls rfl hturns hrest
        rcases hback hnone with ⟨rfl, rfl⟩ | hresumed
        · refine .inr ⟨Nat.lt_succ_self 1, rfl, rfl, .request none, stepRequest cfg _ none, ?_, rfl⟩
          exact Label.noConfusion
        · left
          cases hresumed with
          | requested p more hrequests hmessages =>
            exact .requested p more hrequests hmessages
          | stopped stop hended hread =>
            refine .stopped stop hended (hread.imp (List.mem_cons_of_mem _) ?_)
            intro hread
            obtain ⟨found, hmem⟩ := hread
            exact ⟨found, List.mem_cons_of_mem _ hmem⟩

/-! ### The account -/

/-- The account of the turns of an agent in a state of a run. -/
structure TurnsAccounted (cfg : Config) (s : State) : Prop where
  capped : replies s.history ≤ cfg.maxTurns
  /-- The counter at the start of an iteration. -/
  counted : s.pc = .head → s.turns = replies s.history
  attempts : s.requests.length ≤ 2 * cfg.maxTurns
  /-- Between two discarded responses a turn is counted. -/
  discarded : ∀ {l l' : Label} {t u v : State} {ls : List Label}, Discards cfg s l t →
    (conversation cfg).run t ls = some u → Discards cfg u l' v → t.turns < u.turns
  /-- What is taken goes into the history, and the next request carries it. -/
  taken : 0 < cfg.maxTurns → ∀ {l : Label} {t u : State} {batch : Batch} {ls : List Label},
    step cfg s l = some t → taking cfg s l = some batch →
    (conversation cfg).run t ls = some u → .abort ∉ ls →
    (∃ m, t.history = s.history ++ [m] ∧ Carries cfg batch m) ∧ Resumes cfg t ls u

theorem turns_accounted (cfg : Config) {s : State} (h : (conversation cfg).Reachable s) :
    TurnsAccounted cfg s := by
  have haccounted := accounted_of_reachable h
  refine ⟨?_, fun _ => haccounted.counted, haccounted.attempted, discard_once, ?_⟩
  · rw [← haccounted.counted]
    exact haccounted.capped
  · intro hpos l t u batch ls hstep htaking hrun habort
    obtain ⟨hbound, -, hcarried⟩ := bound_of_taking haccounted hpos hstep htaking
    exact ⟨hcarried, hbound.resumes hrun habort⟩

/-- One counted turn with a delivery before and after it. -/
theorem turns_accounted_echoed : ∃ s,
    (conversation echoConfig).run (conversation echoConfig).init (askedLabels ++ echoedLabels) =
      some s ∧ s.requests.length = 2 ∧ replies s.history = 1 ∧ TurnsAccounted echoConfig s := by
  have hrun : ((conversation echoConfig).run (conversation echoConfig).init
      (askedLabels ++ echoedLabels)).map (fun s => (s.requests.length, replies s.history)) =
        some (2, 1) := by decide +kernel
  obtain ⟨s, hs, heq⟩ := Option.map_eq_some_iff.mp hrun
  obtain ⟨hrequests, hreplies⟩ := Prod.mk.inj heq
  exact ⟨s, hs, hrequests, hreplies, turns_accounted echoConfig (LTS.System.reachable_of_run hs)⟩

end Kyora.Conversation
