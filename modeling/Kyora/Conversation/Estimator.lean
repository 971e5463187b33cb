import Kyora.Conversation.Requests
import Kyora.Ledger.Charges

/-! # The basis of the estimator

  A request is prepared with the usage of the last accepted response and the
  number of messages of the request it answered. The history only grows, so these
  messages are still its first ones, the response comes next, and what follows is
  new: the estimate counts every message once.
-/

namespace Kyora.Conversation

variable {cfg : Config} {s t : State}

/-! ### The request that is answered -/

/-- While the model answers, the last request holds the history. -/
def Asking (s : State) : Prop :=
  ∀ sent, s.pc = .requesting sent → sent = s.history.length ∧
    ∃ asked, s.requests.getLast? = some asked ∧ asked.request.messages = s.history

theorem Moves.asking {l : Label} (hmove : Moves cfg s l t) : Asking t := by
  intro sent hpc
  cases hmove with
  | requested =>
    obtain rfl := Pc.requesting.inj hpc
    exact ⟨rfl, _, List.getLast?_concat, rfl⟩
  | _ => cases hpc

theorem asking_of_reachable (h : (conversation cfg).Reachable s) : Asking s := by
  cases h with
  | init => exact fun sent hpc => Pc.noConfusion hpc
  | step _ _ hstep => exact (step_moves hstep).asking

/-- A response to a request is accepted: it becomes the next message after those
    of the request. -/
structure AcceptedResponse (cfg : Config) (s : State) (asked : Prepared) (response : ModelResponse)
    (invalid : List (String × String)) (t : State) : Prop where
  step : (conversation cfg).step s (.responded response invalid) = some t
  latest : s.requests.getLast? = some asked
  kept : ¬Retries cfg s response invalid
  history : t.history = asked.request.messages ++ [assistantOf cfg response invalid]

/-! ### The measurement -/

/-- Where the usage comes from that the next request is estimated by: from the
    last accepted response of the run. -/
inductive Measured (cfg : Config) (ls : List Label) (s : State) : Option (Usage × Nat) → Prop where
  | unmeasured : s.turns = 0 → Measured cfg ls s none
  | accepted {before after : List Label} {r u : State} {asked : Prepared} {response : ModelResponse}
      {invalid : List (String × String)} :
      ls = before ++ .responded response invalid :: after →
      (conversation cfg).run (conversation cfg).init before = some r →
      (conversation cfg).run u after = some s →
      AcceptedResponse cfg r asked response invalid u →
      u.turns = s.turns →
      Measured cfg ls s (some (response.usage, asked.request.messages.length))

theorem Measured.next {ls : List Label} {previous : Option (Usage × Nat)}
    (h : Measured cfg ls s previous) {l : Label} (hstep : (conversation cfg).step s l = some t)
    (hturns : t.turns = s.turns) : Measured cfg (ls ++ [l]) t previous := by
  cases h with
  | unmeasured hzero => exact .unmeasured (hturns.trans hzero)
  | accepted hls hbefore hafter haccepts hsame =>
    refine .accepted ?_ hbefore ((conversation cfg).run_snoc hafter hstep) haccepts
      (hsame.trans hturns.symm)
    rw [hls, List.append_assoc]
    rfl

theorem measured_of_run {ls : List Label}
    (hrun : (conversation cfg).run (conversation cfg).init ls = some s) :
    Measured cfg ls s s.previous := by
  refine (conversation cfg).run_induction (P := fun ls s => Measured cfg ls s s.previous)
    (.unmeasured rfl) ?_ ls s hrun
  intro ls s l t hrun hs hstep
  have hasking := asking_of_reachable (LTS.System.reachable_of_run hrun)
  have hmove := step_moves hstep
  cases hmove with
  | recorded sent response invalid hpc hretry =>
    obtain ⟨rfl, asked, hasked, hmessages⟩ := hasking sent hpc
    have hlength : s.history.length = asked.request.messages.length := by rw [hmessages]
    have haccepts : AcceptedResponse cfg s asked response invalid _ := ⟨hstep, hasked, hretry, by
      rw [hmessages]
      rfl⟩
    have hmeasured := Measured.accepted rfl hrun ((conversation cfg).run_nil _) haccepts rfl
    rw [← hlength] at hmeasured
    exact hmeasured
  | _ => exact hs.next hstep rfl

theorem grows_history {ls : List Label} (h : (conversation cfg).run s ls = some t) :
    ∃ new, t.history = s.history ++ new := by
  obtain ⟨new, hnew⟩ := (grows_of_run h).1
  exact ⟨new, hnew.symm⟩

/-! ### The estimate -/

section estimate

open Ledger.Word (addedTokens contents estimate estimate_eq)

/-- Each new message counts its bytes and a mark. -/
theorem addedTokens_eq (bytes : List ContentBlock → Nat) (request : ModelRequest) (sent : Nat) :
    addedTokens bytes request sent =
      ((request.messages.drop (sent + 1)).map fun m => bytes m.content + 16).sum := by
  simp only [addedTokens, contents]
  generalize request.messages.drop (sent + 1) = new
  induction new with
  | nil => rfl
  | cons m new ih =>
    simp only [List.map_cons, List.sum_cons, List.length_cons]
    omega

/-- In every run, a request that is prepared with a usage and a number of
    messages starts with the messages of the request that the usage was reported
    for. The next message is the assistant message of that response, the last one
    accepted, and all others were recorded after it. So the estimate is the usage
    and the bytes of the new messages. -/
theorem estimator_basis (cfg : Config) {ls : List Label} {s t : State} {stop : Option Stop}
    {p : Prepared} (hrun : (conversation cfg).run (conversation cfg).init ls = some s)
    (hstep : (conversation cfg).step s (.request stop) = some t)
    (hp : t.requests = s.requests ++ [p]) :
    p.request.messages = s.history ∧
    (p.previous = none → s.turns = 0) ∧
    ∀ usage sent, p.previous = some (usage, sent) →
      ∃ before after r u asked response invalid new,
        ls = before ++ .responded response invalid :: after ∧
        (conversation cfg).run (conversation cfg).init before = some r ∧
        (conversation cfg).run u after = some s ∧
        AcceptedResponse cfg r asked response invalid u ∧ u.turns = s.turns ∧
        response.usage = usage ∧
        p.request.messages.take sent = asked.request.messages ∧
        p.request.messages[sent]? = some (assistantOf cfg response invalid) ∧
        p.request.messages.drop (sent + 1) = new ∧
        s.history = u.history ++ new ∧
        ∀ bytes toolBytes mode, (new.map fun m => bytes m.content + 16).sum < 2 ^ 64 →
          estimate bytes toolBytes mode p.request p.previous =
            mode.fit 64 (usage.total + (new.map fun m => bytes m.content + 16).sum) := by
  have hprepared : p = ⟨s.nextRequest cfg, s.previous⟩ := by
    change step cfg s (.request stop) = some t at hstep
    have hmove := step_moves hstep
    cases hmove with
    | requested => exact (List.singleton_inj.mp (List.append_cancel_left hp)).symm
    | stopped => exact absurd (congrArg List.length hp) (by simp)
    | capped => exact absurd (congrArg List.length hp) (by simp)
  have hmeasured := measured_of_run hrun
  subst hprepared
  refine ⟨rfl, ?_, ?_⟩
  · intro hnone
    change s.previous = none at hnone
    rw [hnone] at hmeasured
    cases hmeasured with
    | unmeasured hzero => exact hzero
  · intro usage sent hprevious
    change s.previous = some (usage, sent) at hprevious
    rw [hprevious] at hmeasured
    cases hmeasured with
    | @accepted before after r u asked response invalid hls hbefore hafter haccepts hturns =>
      obtain ⟨new, hnew⟩ := grows_history hafter
      have hhistory : s.history =
          asked.request.messages ++ (assistantOf cfg response invalid :: new) := by
        rw [hnew, haccepts.history, List.append_assoc]
        rfl
      have hdrop : s.history.drop (asked.request.messages.length + 1) = new := by
        rw [hhistory, ← List.drop_drop, List.drop_left]
        rfl
      refine ⟨before, after, r, u, asked, response, invalid, new, hls, hbefore, hafter, haccepts,
        hturns, rfl, ?_, ?_, hdrop, hnew, ?_⟩
      · show s.history.take asked.request.messages.length = asked.request.messages
        rw [hhistory, List.take_left]
      · show s.history[asked.request.messages.length]? = _
        rw [hhistory, List.getElem?_append_right (Nat.le_refl _), Nat.sub_self]
        rfl
      · intro bytes toolBytes mode hsum
        have hadded := addedTokens_eq bytes (s.nextRequest cfg) asked.request.messages.length
        rw [show (s.nextRequest cfg).messages.drop (asked.request.messages.length + 1) = new
          from hdrop] at hadded
        rw [← hadded] at hsum ⊢
        show estimate bytes toolBytes mode (s.nextRequest cfg) s.previous = _
        rw [hprevious]
        exact estimate_eq bytes toolBytes mode (s.nextRequest cfg) response.usage _ hsum

/-- A discarded response, a response that pauses, and the request after it. -/
def pausedLabels : List Label :=
  [.responded ⟨[.toolUse "a" "echo" .null], .maxTokens, ⟨9, 9, 0, 0⟩⟩ [("a", "raw")],
    .request none, .responded ⟨[.text "pause"], .pauseTurn, ⟨3, 2, 0, 0⟩⟩ [],
    .results none ⟨[], 0, 0⟩, .decide none ⟨[], 0, 0⟩]

theorem estimator_basis_paused : ∃ s t p,
    (conversation echoConfig).run (conversation echoConfig).init (askedLabels ++ pausedLabels) =
      some s ∧
    (conversation echoConfig).step s (.request none) = some t ∧
    t.requests = s.requests ++ [p] ∧ p.previous = some (⟨3, 2, 0, 0⟩, 1) ∧
    ∃ (asked : Prepared) (response : ModelResponse) (invalid : List (String × String)),
      p.request.messages.take 1 = asked.request.messages ∧ response.usage = ⟨3, 2, 0, 0⟩ ∧
      p.request.messages[1]? = some (assistantOf echoConfig response invalid) := by
  have hrun : ∃ s t p, (conversation echoConfig).run (conversation echoConfig).init
      (askedLabels ++ pausedLabels) = some s ∧
    (conversation echoConfig).step s (.request none) = some t ∧
    t.requests = s.requests ++ [p] ∧ p.previous = some (⟨3, 2, 0, 0⟩, 1) :=
    ⟨_, _, _, rfl, rfl, rfl, rfl⟩
  obtain ⟨s, t, p, hs, ht, hp, hprevious⟩ := hrun
  obtain ⟨-, -, hbasis⟩ := estimator_basis echoConfig hs ht hp
  obtain ⟨_, _, _, _, asked, response, invalid, _, -, -, -, -, -, husage, htake, hassistant, -⟩ :=
    hbasis _ _ hprevious
  exact ⟨s, t, p, hs, ht, hp, hprevious, asked, response, invalid, htake, husage, hassistant⟩

end estimate

end Kyora.Conversation
