import Kyora.Inbox.Terminal

/-! # Reporting an outcome

  `report` shows a finished agent's outcome to the model: in full when it fits
  the turn's budget, else as a line that says it follows, or, for a repeat, as
  its status alone. The line that says it follows is never wrong: the entry is
  queued, or is being recorded by the task that staged it.
-/

namespace Kyora.Inbox

/-! ### The report -/

/-- What a report shows. -/
inductive Reported where
  | full
  /-- The outcome follows at the next turn. -/
  | follows
  | leftOut
  deriving DecidableEq, Repr

def Reported.text (cfg : Config) (o : Outcome) : Reported → String
  | .full => renderOutcome cfg o
  | .follows => Mailbox.deferred o.node 1 "result"
  | .leftOut =>
    render (.forStatus o.status) o.node (cfg.names o.node) (some o.status) "" ++
      "\n(answer left out: no room left in this turn's messages)"

/-- Charge the text of a report against the turn's budget. -/
def chargeReport (cfg : Config) (s : State) (o : Outcome) : Option State :=
  match Mailbox.charge s.box (renderOutcome cfg o).length cfg.limits.deliveryChars with
  | (box, true) => some { s with box, items := s.items ++ [(renderOutcome cfg o).length] }
  | (_, false) => none

/-- Stage the notice of an outcome. -/
def stageNotice (cfg : Config) (s : State) (o : Outcome) (id : Nat) : Option State :=
  match Mailbox.stage s.box o.node with
  | (box, true) => some { s with box, staged := s.staged ++ [notice cfg id o] }
  | (_, false) => none

/-- Reports a finished agent's outcome to the model. `isOpen` is the result of
    the admission check, `id` the next message id. -/
def report (cfg : Config) (s : State) (o : Outcome) (isOpen : Bool) (id : Nat) :
    State × Reported :=
  if !Mailbox.hasSeen s.box o.node then
    -- An outcome this model has not been handed is never trimmed.
    if Mailbox.isConcluded s.box o.node then (s, .follows)
    else match chargeReport cfg s o with
      | some t => ({ t with box := Mailbox.saw t.box o.node }, .full)
      | none =>
        match if isOpen then stageNotice cfg s o id else none with
        | some t => (t, .follows)
        | none => (s, .leftOut)
  else match chargeReport cfg s o with
    | some t => (t, .full)
    | none => (s, .leftOut)

theorem step_charge {cfg : Config} {s t : State} {o : Outcome}
    (h : chargeReport cfg s o = some t) : step cfg s (.charge o) = some t := by
  unfold chargeReport at h
  simp only [step]
  cases hcharge : Mailbox.charge s.box (renderOutcome cfg o).length cfg.limits.deliveryChars with
  | mk box charged =>
    rw [hcharge] at h
    cases charged with
    | true => exact h
    | false => cases h

theorem step_stage {cfg : Config} {s t : State} {o : Outcome} {id : Nat}
    (hout : s.outcome o.node = some o) (h : stageNotice cfg s o id = some t) :
    step cfg s (.stage o id) = some t := by
  unfold stageNotice at h
  simp only [step]
  rw [if_pos hout]
  cases hstage : Mailbox.stage s.box o.node with
  | mk box staged =>
    rw [hstage] at h
    cases staged with
    | true => exact h
    | false => cases h

/-- A report is a sequence of steps of the inbox. -/
theorem report_run (cfg : Config) (s : State) {o : Outcome} (isOpen : Bool) (id : Nat)
    (hout : s.outcome o.node = some o) :
    ∃ ls, (inbox cfg).run s ls = some (report cfg s o isOpen id).1 := by
  unfold report
  split
  · split
    · exact ⟨[], rfl⟩
    · split
      · next t hcharge =>
        refine ⟨[.charge o, .saw o.node], ?_⟩
        have hstep : (inbox cfg).step s (.charge o) = some t := step_charge hcharge
        exact ((inbox cfg).run_cons).mpr ⟨t, hstep, rfl⟩
      · split
        · next t hstage =>
          refine ⟨[.stage o id], ((inbox cfg).run_cons).mpr ⟨t, ?_, rfl⟩⟩
          split at hstage
          · exact step_stage hout hstage
          · cases hstage
        · exact ⟨[], rfl⟩
  · split
    · next t hcharge =>
      have hstep : (inbox cfg).step s (.charge o) = some t := step_charge hcharge
      exact ⟨[.charge o], ((inbox cfg).run_cons).mpr ⟨t, hstep, rfl⟩⟩
    · exact ⟨[], rfl⟩

/-! ### One terminal entry -/

/-- How many terminal entries of `c` were given to `push`. -/
def State.terminalCount (s : State) (c : NodeId) : Nat :=
  s.pushed.countP fun e => !e.plain && e.from_ == c

theorem terminalCount_eq (s : State) (c : NodeId) :
    s.terminalCount c = s.notes.posted.count c := by
  unfold State.terminalCount State.notes terminalSenders
  rw [List.count, List.countP_map, List.countP_filter]
  apply List.countP_congr
  intro e _
  simp [and_comm]

/-- A terminal entry of `c` that will be or was queued: it is in the queue, or
    the task that staged it is still recording it. -/
def State.onItsWay (s : State) (c : NodeId) : Prop :=
  (∃ e ∈ s.box.queue, e.plain = false ∧ e.from_ = c) ∨ ∃ e ∈ s.staged, e.from_ = c

/-- What holds of the terminal entries of a mailbox after any interleaving. -/
structure OneTerminal (cfg : Config) (s : State) : Prop where
  once : ∀ c, s.terminalCount c ≤ 1
  /-- A node-owned child has exactly one, once its task ended. -/
  node : ∀ {c : NodeId} {p : Phase}, s.kids c = some ⟨.node, p⟩ →
    ((∃ o, p = .ended o) → s.terminalCount c = 1) ∧
    ((¬ ∃ o, p = .ended o) → s.terminalCount c = 0)
  byNotify : ∀ {c : NodeId} {p : Phase} {l : Label} {t : State} {e : Envelope},
    s.kids c = some ⟨.node, p⟩ → step cfg s l = some t → t.pushed = s.pushed ++ [e] →
    e.plain = false → e.from_ = c → ∃ id, l = .notify c id
  /-- Staging never succeeds for a node-owned child. -/
  stage : ∀ {c : NodeId} {p : Phase}, s.kids c = some ⟨.node, p⟩ → p ≠ .registered →
    (Mailbox.stage s.box c).2 = false
  stageCall : ∀ {o : Outcome} {p : Phase} {id : Nat} {t : State},
    s.kids o.node = some ⟨.node, p⟩ → step cfg s (.stage o id) = some t → t = s
  /-- Awaited from the expectation, or a successful staging, until the push. -/
  awaiting : ∀ c, c ∈ s.box.awaiting ↔
    (∃ p, s.kids c = some ⟨.node, p⟩ ∧ p.awaited = true) ∨ ∃ e ∈ s.staged, e.from_ = c
  follows : s.box.closed = false → ∀ c ∈ s.box.concluded, c ∉ s.box.seen → s.onItsWay c
  /-- A report that says the outcome follows is right. -/
  text : s.box.closed = false → ∀ {o : Outcome} {isOpen : Bool} {id : Nat},
    s.outcome o.node = some o → (report cfg s o isOpen id).2 = .follows →
    (report cfg s o isOpen id).1.onItsWay o.node

/-- Concluded, not handed over and not lost to a closed mailbox. -/
theorem onItsWay_of_concluded {s : State} (h : s.notes.Sound) (hopen : s.box.closed = false)
    {c : NodeId} (hc : c ∈ s.box.concluded) (hseen : c ∉ s.box.seen) : s.onItsWay c := by
  rcases List.mem_append.mp ((h.concluded c).mp hc) with hposted | hrec
  · rcases h.arrived c hposted with hq | hs | hcl
    · exact Or.inl (mem_terminalSenders.mp hq)
    · exact absurd hs hseen
    · have hclosed : s.box.closed = true := hcl
      rw [hopen] at hclosed
      cases hclosed
  · exact Or.inr (List.mem_map.mp hrec)

/-- The line that says the outcome follows is shown only when it does. -/
theorem report_follows {cfg : Config} {s : State} {o : Outcome} {isOpen : Bool} {id : Nat}
    (h : s.notes.Sound) (hopen : s.box.closed = false)
    (htext : (report cfg s o isOpen id).2 = .follows) :
    (report cfg s o isOpen id).1.onItsWay o.node := by
  unfold report at htext ⊢
  by_cases hseen : (!Mailbox.hasSeen s.box o.node) = true
  · rw [if_pos hseen] at htext ⊢
    by_cases hconc : Mailbox.isConcluded s.box o.node = true
    · rw [if_pos hconc]
      simp only [Mailbox.hasSeen, Bool.not_eq_true', decide_eq_false_iff_not] at hseen
      exact onItsWay_of_concluded h hopen (by simpa [Mailbox.isConcluded] using hconc) hseen
    · rw [if_neg hconc] at htext ⊢
      cases hcharge : chargeReport cfg s o with
      | some t => rw [hcharge] at htext; cases htext
      | none =>
        rw [hcharge] at htext
        simp only at htext ⊢
        cases hstage : (if isOpen = true then stageNotice cfg s o id else none) with
        | none => rw [hstage] at htext; cases htext
        | some t =>
          -- Staged just now: the task that records it is on its way.
          simp only
          split at hstage
          · unfold stageNotice at hstage
            split at hstage
            · obtain rfl := Option.some.inj hstage
              exact Or.inr ⟨notice cfg id o, by simp, rfl⟩
            · cases hstage
          · cases hstage
  · rw [if_neg hseen] at htext
    split at htext
    · cases htext
    · cases htext

/-- Staging is refused for a node-owned child from its expectation on. -/
theorem stage_node {s : State} (h : s.notes.Sound) {c : NodeId} {p : Phase}
    (hkid : s.kids c = some ⟨.node, p⟩) (hp : p ≠ .registered) :
    (Mailbox.stage s.box c).2 = false := by
  rw [← Bool.not_eq_true]
  intro htrue
  obtain ⟨-, hawait, hnew, -⟩ := Mailbox.stage_true.mp (Prod.ext rfl htrue :
    Mailbox.stage s.box c = ((Mailbox.stage s.box c).1, true))
  cases hphase : p.awaited
  · -- Not awaited and past the registration: its own notice was pushed.
    obtain ⟨o, ho⟩ : ∃ o, p = .ended o := by
      cases p with
      | registered => exact absurd rfl hp
      | ended o => exact ⟨o, rfl⟩
      | _ => cases hphase
    apply hnew
    exact (h.concluded c).mpr (List.mem_append_left _ ((h.node c p hkid).2.mpr ⟨o, ho⟩))
  · exact hawait ((h.awaiting c).mpr (Or.inl ⟨p, hkid, hphase⟩))

/-- A cell-owned child is staged by a report that did not fit, next to a
    node-owned child that posts its own notice. -/
def reportedLabels : List Label :=
  let m : Envelope := ⟨0, 2, 1, .message, "a long message from the child", none, none⟩
  [.register 2 .cell, .register 3 .node, .expect 3, .accept m, .deliver m, .take .all,
    .join 2, .publish ⟨2, .completed, "done"⟩, .stage ⟨2, .completed, "done"⟩ 1,
    .join 3, .publish ⟨3, .failed, "no"⟩, .stage ⟨3, .failed, "no"⟩ 2, .notify 3 2]

end Kyora.Inbox
