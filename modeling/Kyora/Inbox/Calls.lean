import Kyora.Inbox.Delivery
import Kyora.Inbox.Order
import Kyora.Inbox.Report

/-! # An agent that reports

  The inbox of one agent together with its `wait` and `cancel_agent` calls.
  The tools of an agent run one after another, and each takes, stages and
  reports in turn; sends, notices and the tasks that record them run next to
  them. `report` locks the mailbox once for each question it asks, so the
  other tasks also run between its questions.

  The history fields of a `Call` keep what had been handed over when it was
  made.
-/

namespace Kyora.Inbox

/-! ### State -/

/-- A call of `report`. -/
structure Call where
  outcome : Outcome
  /-- What `has_seen` said. -/
  again : Bool
  /-- Agents whose outcome the model had been handed. -/
  handed : List NodeId
  /-- Sizes of what had been handed over in the turn. -/
  items : List Nat
  deriving DecidableEq, Repr

/-- Which question of `report` comes next. -/
inductive Doing where
  | free
  /-- A first report asks whether a terminal entry was queued or staged. -/
  | asking (c : Call)
  | charging (c : Call)
  /-- A first report was charged and is noted as seen. -/
  | noting (c : Call)
  /-- A first report did not fit. -/
  | staging (c : Call)
  deriving DecidableEq, Repr

/-- A report that returned. -/
structure Returned where
  call : Call
  shown : Reported
  deriving DecidableEq, Repr

structure Agent where
  inbox : State
  /-- Children a `wait` found finished. -/
  found : List NodeId
  doing : Doing
  /-- Every report that returned, oldest first. -/
  returned : List Returned

def Agent.init : Agent := ⟨.init, [], .free, []⟩

/-- Agents whose outcome the model was handed in full by a report. -/
def reportedFull (rs : List Returned) : List NodeId :=
  (rs.filter fun r => r.shown = .full).map fun r => r.call.outcome.node

/-- Agents whose outcome the model was handed, in a message or in a report. -/
def Agent.handed (s : Agent) : List NodeId :=
  terminalSenders s.inbox.delivered ++ reportedFull s.returned

/-! ### Steps -/

/-- Steps of the other tasks on the mailbox. -/
def Label.background : Label → Bool
  | .accept _ | .deliver _ | .register _ _ | .expect _ | .join _ | .publish _ | .notify _ _
  | .conclude _ | .close | .wake _ => true
  | .stage _ _ | .take _ | .idle _ | .charge _ | .saw _ | .newTurn => false

/-- Steps of the agent outside of `report`: a `wait` stages and takes. -/
def Label.own : Label → Bool
  | .stage _ _ | .take _ | .idle _ | .newTurn => true
  | _ => false

inductive Act where
  /-- A step of another task, or of the agent between two reports. -/
  | other (l : Label)
  /-- A `wait` finds a child finished. -/
  | found (c : NodeId)
  /-- `wait` reports a child it found, `cancel_agent` a deeper descendant. -/
  | call (o : Outcome)
  /-- The next question of the report. `isOpen` is the result of the admission
      check, `id` the next message id. -/
  | next (isOpen : Bool) (id : Nat)

/-- The report returns. -/
def Agent.answer (s : Agent) (c : Call) (shown : Reported) : Agent :=
  { s with doing := .free, returned := s.returned ++ [⟨c, shown⟩] }

/-- The next question of `report`. -/
def Agent.next (cfg : Config) (s : Agent) (isOpen : Bool) (id : Nat) : Option Agent :=
  match s.doing with
  | .free => none
  | .asking c =>
    if Mailbox.isConcluded s.inbox.box c.outcome.node then some (s.answer c .follows)
    else some { s with doing := .charging c }
  | .charging c =>
    match chargeReport cfg s.inbox c.outcome with
    | some i =>
      if c.again then some ({ s with inbox := i }.answer c .full)
      else some { s with inbox := i, doing := .noting c }
    | none =>
      if c.again then some (s.answer c .leftOut)
      else some { s with doing := .staging c }
  | .noting c =>
    let i := { s.inbox with box := Mailbox.saw s.inbox.box c.outcome.node }
    some ({ s with inbox := i }.answer c .full)
  | .staging c =>
    match if isOpen then stageNotice cfg s.inbox c.outcome id else none with
    | some i => some ({ s with inbox := i }.answer c .follows)
    | none => some (s.answer c .leftOut)

/-- Whether `wait` or `cancel_agent` may report an outcome it read. -/
def Agent.mayReport (s : Agent) (o : Outcome) : Bool :=
  s.inbox.outcome o.node = some o ∧
    (o.node ∈ s.found ∨ (s.inbox.kids o.node).map Kid.kin = some .deeper)

def Agent.step (cfg : Config) (s : Agent) : Act → Option Agent
  | .other l =>
    if l.background ∨ (l.own ∧ s.doing = .free) then
      (Inbox.step cfg s.inbox l).map fun i => { s with inbox := i }
    else none
  | .found c =>
    -- Finished means the outcome is published and any notice has been queued.
    if s.doing = .free ∧ (s.inbox.outcome c).isSome ∧ c ∉ s.inbox.box.awaiting then
      some { s with found := s.found ++ [c] }
    else none
  | .call o =>
    if s.doing = .free ∧ s.mayReport o then
      let again := Mailbox.hasSeen s.inbox.box o.node
      let c : Call := ⟨o, again, s.handed, s.inbox.items⟩
      some { s with doing := if again then .charging c else .asking c }
    else none
  | .next isOpen id => s.next cfg isOpen id

/-- All interleavings of an agent's calls with the tasks on its mailbox. -/
def agent (cfg : Config) : LTS.System Agent Act where
  init := .init
  step := Agent.step cfg

/-- A call whose questions follow one another at once is a `report`. -/
theorem report_alone (cfg : Config) {s : Agent} {o : Outcome} (isOpen : Bool) (id : Nat)
    (hfree : s.doing = .free) (hmay : s.mayReport o = true) :
    ∃ n c, c.outcome = o ∧
      (agent cfg).run s (.call o :: List.replicate n (.next isOpen id)) =
        some ({ s with inbox := (report cfg s.inbox o isOpen id).1 }.answer c
          (report cfg s.inbox o isOpen id).2) := by
  have hcall : ∀ as, (agent cfg).run s (.call o :: as) = (agent cfg).run
      { s with doing :=
          let c : Call :=
            ⟨o, Mailbox.hasSeen s.inbox.box o.node, s.handed, s.inbox.items⟩
          if Mailbox.hasSeen s.inbox.box o.node then .charging c else .asking c } as := by
    intro as
    show ((agent cfg).step s (.call o)).bind _ = _
    simp only [agent, Agent.step, hfree, hmay, and_self, if_true, Option.bind_some]
  cases hseen : Mailbox.hasSeen s.inbox.box o.node with
  | true =>
    refine ⟨1, ⟨o, true, s.handed, s.inbox.items⟩, rfl, ?_⟩
    rw [hcall, hseen]
    cases hcharge : chargeReport cfg s.inbox o with
    | some t =>
      simp [LTS.System.run, agent, Agent.step, Agent.next, report, hseen, hcharge, Agent.answer]
    | none =>
      simp [LTS.System.run, agent, Agent.step, Agent.next, report, hseen, hcharge, Agent.answer]
  | false =>
    cases hconc : Mailbox.isConcluded s.inbox.box o.node with
    | true =>
      refine ⟨1, ⟨o, false, s.handed, s.inbox.items⟩, rfl, ?_⟩
      rw [hcall, hseen]
      simp [LTS.System.run, agent, Agent.step, Agent.next, report, hseen, hconc, Agent.answer]
    | false =>
      refine ⟨3, ⟨o, false, s.handed, s.inbox.items⟩, rfl, ?_⟩
      rw [hcall, hseen]
      cases hcharge : chargeReport cfg s.inbox o with
      | some t =>
        simp [LTS.System.run, agent, Agent.step, Agent.next, report, hseen, hconc, hcharge,
          Agent.answer, List.replicate]
      | none =>
        cases hstage : (if isOpen = true then stageNotice cfg s.inbox o id else none) with
        | some t =>
          simp [LTS.System.run, agent, Agent.step, Agent.next, report, hseen, hconc, hcharge,
            hstage, Agent.answer, List.replicate]
        | none =>
          simp [LTS.System.run, agent, Agent.step, Agent.next, report, hseen, hconc, hcharge,
            hstage, Agent.answer, List.replicate]

end Kyora.Inbox
