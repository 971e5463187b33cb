import Kyora.Framework.Fair
import Kyora.Requests.Refused
import Kyora.Requests.Steps

/-! # Reservations of accepted sends

  An accepted send holds one reservation of its recipient's mailbox until its
  task pushes the message. Nothing else takes or gives up a reservation, so
  what is reserved is what the unfinished sends hold, and a task that is given
  its turns always reaches its push, whatever happens to the recipient.
-/

namespace Kyora.Requests

open LTS

open Tree (Config Node ChildSpec Owner LlmCall)

/-! ### The task of a send -/

theorem sending_eq {s : State} {k : Nat} {x : Sending} :
    s.sending k = some x ↔ s.tasks[k]? = some (.send x) := by
  unfold State.sending
  constructor
  · intro h
    split at h
    · next hk => rw [hk, Option.some.inj h]
    · cases h
  · intro h
    rw [h]

theorem sending_setTask {s t : State} {k : Nat} {x y : Sending} (hx : s.sending k = some x)
    (htasks : t.tasks = s.tasks.set k (.send y)) (j : Nat) :
    t.sending j = if j = k then some y else s.sending j := by
  have hlt := (List.getElem?_eq_some_iff.mp (sending_eq.mp hx)).1
  unfold State.sending
  rw [htasks, List.getElem?_set]
  by_cases hj : j = k
  · rw [if_pos hj, if_pos hj.symm, if_pos (hj ▸ hlt)]
  · rw [if_neg hj, if_neg (Ne.symm hj)]

/-- How far a task is from its end. -/
def Phase.rank : Phase → Nat
  | .waiting => 4
  | .recording => 3
  | .pushing => 2
  | .returning => 1
  | .done _ => 0

theorem Phase.rank_eq_zero {p : Phase} : p.rank = 0 ↔ p.isDone = true := by
  cases p <;> simp [rank, isDone]

/-- What one step of a send's task does: it goes on to a later phase, and the
    push is the one step that touches the mailbox. -/
structure Advanced (s t : State) (k : Nat) (x y : Sending) : Prop where
  was : s.sending k = some x
  queued : x.phase = .waiting → s.queued x.previous = true
  message : y.message = x.message
  recipient : y.recipient = x.recipient
  previous : y.previous = x.previous
  phase : y.phase.rank < x.phase.rank
  tasks : t.tasks = s.tasks.set k (.send y)
  works : t.works = s.works
  boxes : x.phase.holds = y.phase.holds ∧ t.boxes = s.boxes ∨
    x.phase.holds = true ∧ y.phase.holds = false ∧
      ∃ box r, Mailbox.push (s.boxes x.recipient) x.message.envelope = some (box, r) ∧
        t.boxes = Function.update s.boxes x.recipient box

/-- A step to a later phase. -/
theorem Advanced.of_phase {s t : State} {k : Nat} {x : Sending} {p : Phase}
    (hx : s.sending k = some x) (hqueued : x.phase = .waiting → s.queued x.previous = true)
    (hrank : p.rank < x.phase.rank) (htasks : t.tasks = s.tasks.set k (.send { x with phase := p }))
    (hworks : t.works = s.works) (hboxes : x.phase.holds = p.holds ∧ t.boxes = s.boxes ∨
      x.phase.holds = true ∧ p.holds = false ∧
        ∃ box r, Mailbox.push (s.boxes x.recipient) x.message.envelope = some (box, r) ∧
          t.boxes = Function.update s.boxes x.recipient box) :
    Advanced s t k x { x with phase := p } :=
  ⟨hx, hqueued, rfl, rfl, rfl, hrank, htasks, hworks, hboxes⟩

theorem advanced_of_advance {s t : State} {k : Nat} {written : Bool}
    (h : advance s k written = some t) : ∃ x y, Advanced s t k x y := by
  obtain ⟨x, hx, h⟩ := Option.bind_eq_some_iff.mp h
  cases hphase : x.phase with
  | waiting =>
    simp only [hphase] at h
    split at h
    · next hqueued =>
      obtain rfl := Option.some.inj h
      refine ⟨x, _, .of_phase (p := .recording) hx (fun _ => hqueued) ?_ rfl rfl (.inl ⟨?_, rfl⟩)⟩
      · rw [hphase]
        decide
      · rw [hphase]
        rfl
    · cases h
  | recording =>
    simp only [hphase] at h
    obtain rfl := Option.some.inj h
    refine ⟨x, _, .of_phase (p := .pushing) hx ?_ ?_ rfl rfl (.inl ⟨?_, rfl⟩)⟩
    · intro hwaiting
      cases hphase.symm.trans hwaiting
    · rw [hphase]
      decide
    · rw [hphase]
      rfl
  | pushing =>
    simp only [hphase] at h
    obtain ⟨⟨box, r⟩, hpush, heq⟩ := Option.map_eq_some_iff.mp h
    have hgive : ∀ p : Phase, p.rank < x.phase.rank → p.holds = false →
        t = (s.setBox x.recipient box).setSending k { x with phase := p } →
        ∃ x y, Advanced s t k x y := by
      intro p hrank hholds ht
      obtain rfl := ht
      refine ⟨x, _, .of_phase (p := p) hx ?_ hrank rfl rfl
        (.inr ⟨?_, hholds, box, r, hpush, rfl⟩)⟩
      · intro hwaiting
        cases hphase.symm.trans hwaiting
      · rw [hphase]
        rfl
    rw [hphase] at hgive
    cases r with
    | ok u => exact hgive (.done (.ok x.message.envelope.id)) Nat.zero_lt_two rfl heq.symm
    | error e => exact hgive .returning (by decide) rfl heq.symm
  | returning =>
    simp only [hphase] at h
    obtain rfl := Option.some.inj h
    refine ⟨x, _, .of_phase (p := .done _) hx ?_ ?_ rfl rfl (.inl ⟨?_, rfl⟩)⟩
    · intro hwaiting
      cases hphase.symm.trans hwaiting
    · rw [hphase]
      exact Nat.zero_lt_one
    · rw [hphase]
      rfl
  | done result =>
    simp only [hphase] at h
    cases h

/-! ### Accounting -/

/-- Every reservation belongs to an unfinished send, and every send goes after
    an earlier one of its sender. -/
structure State.Sound (s : State) : Prop where
  reserved : ∀ b, (s.boxes b).reserved = s.holding b
  plain : ∀ k x, s.sending k = some x → x.message.envelope.plain = true
  earlier : ∀ k x, s.sending k = some x → ∀ p ∈ x.previous, p < k ∧ ∃ y, s.sending p = some y
  latest : ∀ i, ∀ p ∈ (s.works i).sent, ∃ y, s.sending p = some y

theorem Quiet.sound {s t : State} (h : Quiet s t) (hs : s.Sound) : t.Sound := by
  refine ⟨?_, ?_, ?_, ?_⟩
  · intro b
    rw [h.reserved, h.holding, hs.reserved]
  · intro k x hx
    exact hs.plain k x (h.sending k ▸ hx)
  · intro k x hx p hp
    rw [h.sending p]
    exact hs.earlier k x (h.sending k ▸ hx) p hp
  · intro i p hp
    rw [h.sending p]
    exact hs.latest i p (h.sent i ▸ hp)

/-- The sends after one more was accepted. -/
theorem Accepted.sending {s t : State} {x : Sending} {i : Nat} (h : Accepted s t x i) (k : Nat) :
    t.sending k = if k = s.tasks.length then some x else s.sending k := by
  unfold State.sending
  rw [h.tasks]
  by_cases hk : k = s.tasks.length
  · rw [if_pos hk, hk, List.getElem?_concat_length]
  · rw [if_neg hk]
    by_cases hlt : k < s.tasks.length
    · rw [List.getElem?_append_left hlt]
    · have hle := Nat.lt_of_le_of_ne (Nat.le_of_not_lt hlt) (Ne.symm hk)
      rw [List.getElem?_eq_none (by simp; omega), List.getElem?_eq_none (Nat.le_of_lt hle)]

/-- Sends are never lost. -/
theorem Accepted.kept {s t : State} {x y : Sending} {i k : Nat} (h : Accepted s t x i)
    (hy : s.sending k = some y) : t.sending k = some y := by
  have hlt := (List.getElem?_eq_some_iff.mp (sending_eq.mp hy)).1
  rw [h.sending, if_neg (Nat.ne_of_lt hlt), hy]

theorem Accepted.sound {s t : State} {x : Sending} {i : Nat} (h : Accepted s t x i)
    (hs : s.Sound) : t.Sound := by
  refine ⟨?_, ?_, ?_, ?_⟩
  · intro b
    rw [h.reserved, hs.reserved, State.holding, State.holding, h.tasks, List.countP_append,
      List.countP_singleton]
    simp only [Task.holds, h.phase, Phase.holds, Bool.and_true, beq_iff_eq]
  · intro k y hy
    rw [h.sending] at hy
    split at hy
    · exact Option.some.inj hy ▸ h.plain
    · exact hs.plain k y hy
  · intro k y hy p hp
    have hprevious : p < k ∧ ∃ z, s.sending p = some z := by
      rw [h.sending] at hy
      split at hy
      · next hk =>
        -- The new send goes after the latest one of its sender.
        obtain rfl := Option.some.inj hy
        rw [h.previous] at hp
        obtain ⟨z, hz⟩ := hs.latest i p hp
        exact ⟨hk ▸ (List.getElem?_eq_some_iff.mp (sending_eq.mp hz)).1, z, hz⟩
      · exact hs.earlier k y hy p hp
    obtain ⟨hlt, z, hz⟩ := hprevious
    exact ⟨hlt, z, h.kept hz⟩
  · intro j p hp
    rw [h.sent] at hp
    split at hp
    · rw [← Option.some.inj hp]
      exact ⟨x, by rw [h.sending, if_pos rfl]⟩
    · obtain ⟨z, hz⟩ := hs.latest j p hp
      exact ⟨z, h.kept hz⟩

theorem Advanced.sound {s t : State} {k : Nat} {x y : Sending} (h : Advanced s t k x y)
    (hs : s.Sound) : t.Sound := by
  have hsending := sending_setTask h.was h.tasks
  have hlive : ∀ {p z}, s.sending p = some z → ∃ z', t.sending p = some z' := by
    intro p z hz
    rw [hsending]
    split
    · exact ⟨y, rfl⟩
    · exact ⟨z, hz⟩
  refine ⟨?_, ?_, ?_, ?_⟩
  · intro b
    have hcount := holding_setTask (sending_eq.mp h.was) (.send y) b
    rw [← h.tasks] at hcount
    change t.holding b + _ = _ at hcount
    simp only [Task.holds, h.recipient] at hcount
    rcases h.boxes with ⟨hphase, hboxes⟩ | ⟨hwas, hnow, box, r, hpush, hboxes⟩
    · rw [hphase] at hcount
      rw [hboxes, hs.reserved]
      omega
    · -- The push gives up the reservation of this send.
      rw [hwas, hnow, Bool.and_true, Bool.and_false] at hcount
      rw [hboxes, Function.update_apply]
      by_cases hb : b = x.recipient
      · rw [if_pos hb]
        have hone : (x.recipient == b) = true := by rw [hb, beq_self_eq_true]
        rw [hone] at hcount
        simp only [Bool.toNat_true, Bool.toNat_false, Nat.add_zero] at hcount
        have hreserved := hs.reserved b
        have hpos : 0 < (s.boxes x.recipient).reserved := by
          rw [← hb]
          omega
        obtain ⟨box', hbox', hpush'⟩ := push_plain (hs.plain k x h.was) hpos
        obtain ⟨rfl, -⟩ := Prod.mk.inj (Option.some.inj (hpush.symm.trans hpush'))
        rw [← hb] at hbox'
        omega
      · rw [if_neg hb, hs.reserved]
        have hzero : (x.recipient == b) = false := beq_eq_false_iff_ne.mpr (Ne.symm hb)
        rw [hzero] at hcount
        simp only [Bool.toNat_false, Nat.add_zero] at hcount
        exact hcount.symm
  · intro j z hz
    rw [hsending] at hz
    split at hz
    · rw [← Option.some.inj hz, h.message]
      exact hs.plain k x h.was
    · exact hs.plain j z hz
  · intro j z hz p hp
    have hearlier : p < j ∧ ∃ w, s.sending p = some w := by
      rw [hsending] at hz
      split at hz
      · next hj =>
        rw [← Option.some.inj hz, h.previous] at hp
        exact hj ▸ hs.earlier k x h.was p hp
      · exact hs.earlier j z hz p hp
    obtain ⟨hlt, w, hw⟩ := hearlier
    exact ⟨hlt, hlive hw⟩
  · intro i p hp
    rw [h.works] at hp
    obtain ⟨z, hz⟩ := hs.latest i p hp
    exact hlive hz

variable {cfg : Config}

theorem sound_of_reachable {s : State} (h : (requests cfg).Reachable s) : s.Sound := by
  refine System.invariant ?_ ?_ s h
  · refine ⟨fun _ => rfl, ?_, ?_, ?_⟩
    · intro k x hx
      cases hx
    · intro k x hx
      cases hx
    · intro i p hp
      cases hp
  · intro s l t hs _ hstep
    by_cases hl : ∃ k written, l = .advance k written
    · obtain ⟨k, written, rfl⟩ := hl
      obtain ⟨x, y, hadvanced⟩ := advanced_of_advance hstep
      exact hadvanced.sound hs
    · rcases step_cases hstep (fun k written heq => hl ⟨k, written, heq⟩) with
        hquiet | ⟨x, i, haccepted⟩
      · exact hquiet.sound hs
      · exact haccepted.sound hs

/-- A push finds its reservation, and gives it up also where the recipient has
    closed its mailbox. -/
theorem State.Sound.pushed {s : State} (hs : s.Sound) {k : Nat} {x : Sending}
    (hx : s.sending k = some x) (hphase : x.phase = .pushing) (written : Bool) :
    ∃ t, advance s k written = some t ∧
      (t.boxes x.recipient).reserved + 1 = (s.boxes x.recipient).reserved ∧
      t.sending k = some { x with
        phase := if (s.boxes x.recipient).closed then .returning
          else .done (.ok x.message.envelope.id) } := by
  have hpos : 0 < (s.boxes x.recipient).reserved := by
    rw [hs.reserved]
    refine List.countP_pos_iff.mpr ⟨.send x, List.mem_of_getElem? (sending_eq.mp hx), ?_⟩
    simp only [Task.holds, hphase, Phase.holds, Bool.and_true, beq_self_eq_true]
  obtain ⟨box, hbox, hpush⟩ := push_plain (hs.plain k x hx) hpos
  unfold advance
  rw [hx]
  simp only [Option.bind_some, hphase, hpush, Option.map_some]
  cases hclosed : (s.boxes x.recipient).closed with
  | true =>
    refine ⟨_, rfl, ?_, ?_⟩
    · simp only [if_true, State.setSending, State.setBox, Function.update_self]
      exact hbox
    · rw [sending_setTask hx rfl k, if_pos rfl, if_pos rfl]
  | false =>
    refine ⟨_, rfl, ?_, ?_⟩
    · simp only [Bool.false_eq_true, if_false, State.setSending, State.setBox,
        Function.update_self]
      exact hbox
    · rw [sending_setTask hx rfl k, if_pos rfl, if_neg (by decide)]

/-! ### Progress -/

/-- The task of send `k` may go on, with this many phases before its end at
    most. -/
def Going (k rank : Nat) (s : State) : Prop :=
  ∃ x, s.sending k = some x ∧ s.queued x.previous = true ∧ x.phase.rank ≤ rank

/-- The task of send `k` has come to its end. -/
def Ended (k : Nat) (s : State) : Prop :=
  ∃ x result, s.sending k = some x ∧ x.phase = .done result

/-- The steps of the task of send `k`. -/
def isStepOf (k : Nat) (l : Label) : Prop := ∃ written, l = .advance k written

/-- A step keeps every send with its previous one, and brings its phase no
    further back. A step of another task leaves it alone. -/
theorem sending_step {s t : State} {l : Label} (h : step cfg s l = some t) {k : Nat} {x : Sending}
    (hx : s.sending k = some x) : ∃ y, t.sending k = some y ∧ y.previous = x.previous ∧
      (y = x ∨ y.phase.rank < x.phase.rank ∧ isStepOf k l) := by
  by_cases hl : ∃ j written, l = .advance j written
  · obtain ⟨j, written, rfl⟩ := hl
    obtain ⟨x', y, hadvanced⟩ := advanced_of_advance h
    have hsending := sending_setTask hadvanced.was hadvanced.tasks k
    by_cases hk : k = j
    · rw [if_pos hk] at hsending
      obtain rfl : x' = x := Option.some.inj (hadvanced.was.symm.trans (hk ▸ hx))
      exact ⟨y, hsending, hadvanced.previous, .inr ⟨hadvanced.phase, written, by rw [hk]⟩⟩
    · rw [if_neg hk, hx] at hsending
      exact ⟨x, hsending, rfl, .inl rfl⟩
  · rcases step_cases h (fun j written heq => hl ⟨j, written, heq⟩) with
      hquiet | ⟨z, i, haccepted⟩
    · exact ⟨x, (hquiet.sending k).trans hx, rfl, .inl rfl⟩
    · exact ⟨x, haccepted.kept hx, rfl, .inl rfl⟩

theorem queued_step {s t : State} {l : Label} (h : step cfg s l = some t) {p : Option Nat}
    (hp : s.queued p = true) : t.queued p = true := by
  cases p with
  | none => rfl
  | some k =>
    obtain ⟨x, hx, hdone⟩ := Option.any_eq_true _ _ |>.mp hp
    obtain ⟨y, hy, -, heq | ⟨hlt, -⟩⟩ := sending_step h hx
    · exact (Option.any_eq_true _ _).mpr ⟨y, hy, heq ▸ hdone⟩
    · rw [Phase.rank_eq_zero.mpr hdone] at hlt
      exact absurd hlt (Nat.not_lt_zero _)

/-- A task that may go on can take a step. -/
theorem enabled_of_going {s : State} (hs : s.Sound) {k : Nat} {x : Sending}
    (hx : s.sending k = some x) (hqueued : s.queued x.previous = true)
    (hrank : x.phase.rank ≠ 0) : (requests cfg).Enabled (isStepOf k) s := by
  refine ⟨.advance k true, ⟨true, rfl⟩, ?_⟩
  change ∃ t, advance s k true = some t
  cases hphase : x.phase with
  | waiting =>
    unfold advance
    rw [hx]
    simp only [Option.bind_some, hphase, hqueued, if_true]
    exact ⟨_, rfl⟩
  | recording =>
    unfold advance
    rw [hx]
    simp only [Option.bind_some, hphase]
    exact ⟨_, rfl⟩
  | pushing =>
    obtain ⟨t, ht, -⟩ := hs.pushed hx hphase true
    exact ⟨t, ht⟩
  | returning =>
    unfold advance
    rw [hx]
    simp only [Option.bind_some, hphase]
    exact ⟨_, rfl⟩
  | done result =>
    rw [hphase] at hrank
    exact absurd rfl hrank

/-- Fair to the task of every send. -/
def FairToSends (e : Execution (requests cfg)) : Prop := ∀ k, e.Fair (isStepOf k)

theorem leadsTo_ended {e : Execution (requests cfg)} (hfair : FairToSends e) (k : Nat) :
    ∀ rank, e.LeadsTo (Going k rank) (Ended k) := by
  have hdone : ∀ {s x}, s.sending k = some x → x.phase.rank = 0 → Ended k s := by
    intro s x hx hrank
    cases hphase : x.phase with
    | done result => exact ⟨x, result, hx, hphase⟩
    | _ =>
      rw [hphase] at hrank
      cases hrank
  intro rank
  -- Every step of the task brings it closer to its end.
  induction rank with
  | zero =>
    rintro i ⟨x, hx, -, hrank⟩
    exact ⟨i, Nat.le_refl i, hdone hx (Nat.le_zero.mp hrank)⟩
  | succ rank ih =>
    have hexact : e.LeadsTo
        (fun s => ∃ x, s.sending k = some x ∧ s.queued x.previous = true ∧
          x.phase.rank = rank + 1) (Going k rank) := by
      refine Execution.leadsTo_of_fair (hfair k) ?_ ?_ ?_
      · rintro s hreach ⟨x, hx, hqueued, hrank⟩
        refine enabled_of_going (sound_of_reachable hreach) hx hqueued ?_
        rw [hrank]
        exact Nat.succ_ne_zero rank
      · rintro s l t - ⟨x, hx, hqueued, hrank⟩ hstep hother
        obtain ⟨y, hy, hprevious, heq | ⟨-, hmine⟩⟩ := sending_step hstep hx
        · left
          refine ⟨y, hy, ?_, heq ▸ hrank⟩
          rw [hprevious]
          exact queued_step hstep hqueued
        · exact absurd hmine hother
      · rintro s l t - ⟨x, hx, hqueued, hrank⟩ hstep ⟨written, rfl⟩
        change step cfg s (.advance k written) = some t at hstep
        have hlater := queued_step hstep hqueued
        obtain ⟨x', y, hadvanced⟩ := advanced_of_advance hstep
        obtain rfl : x' = x := Option.some.inj (hadvanced.was.symm.trans hx)
        refine ⟨y, ?_, ?_, ?_⟩
        · rw [sending_setTask hadvanced.was hadvanced.tasks, if_pos rfl]
        · rw [hadvanced.previous]
          exact hlater
        · have hlt := hadvanced.phase
          omega
    rintro i ⟨x, hx, hqueued, hrank⟩
    rcases Nat.lt_or_eq_of_le hrank with hlt | heq
    · exact ih i ⟨x, hx, hqueued, Nat.le_of_lt_succ hlt⟩
    · exact (hexact.trans ih) i ⟨x, hx, hqueued, heq⟩

/-- An accepted send comes to its end, after those its sender made before. -/
theorem ended_of_fair {e : Execution (requests cfg)} (hfair : FairToSends e) (k : Nat) :
    e.LeadsTo (fun s => ∃ x, s.sending k = some x) (Ended k) := by
  induction k using Nat.strong_induction_on with
  | _ k ih =>
    rintro i ⟨x, hx⟩
    obtain ⟨hle, hpoint⟩ : ∃ j, i ≤ j ∧ ∃ y, (e.states j).sending k = some y ∧
        (e.states j).queued y.previous = true := by
      cases hprevious : x.previous with
      | none =>
        refine ⟨i, Nat.le_refl i, x, hx, ?_⟩
        rw [hprevious]
        rfl
      | some p =>
        obtain ⟨hlt, hsent⟩ :=
          (sound_of_reachable (e.reachable i)).earlier k x hx p (by rw [hprevious]; rfl)
        obtain ⟨j, hij, z, result, hz, hphase⟩ := ih p hlt i hsent
        have hkept : ∃ y, (e.states j).sending k = some y ∧ y.previous = some p := by
          have hstays : ∀ (s : State) l t, (requests cfg).Reachable s →
              (∃ y, s.sending k = some y ∧ y.previous = some p) →
              (requests cfg).step s l = some t →
              ∃ y, t.sending k = some y ∧ y.previous = some p := by
            rintro s l t - ⟨y, hy, hp⟩ hstep
            obtain ⟨y', hy', hp', -⟩ := sending_step hstep hy
            exact ⟨y', hy', hp'.trans hp⟩
          exact Execution.kept hstays hij ⟨x, hx, hprevious⟩
        obtain ⟨y, hy, hp⟩ := hkept
        refine ⟨j, hij, y, hy, ?_⟩
        rw [hp]
        exact (Option.any_eq_true _ _).mpr ⟨z, hz, by rw [hphase]; rfl⟩
    obtain ⟨hij, y, hy, hqueued⟩ := hpoint
    obtain ⟨j, hj, hended⟩ := leadsTo_ended hfair k _ hle ⟨y, hy, hqueued, Nat.le_refl _⟩
    exact ⟨j, hij.trans hj, hended⟩

end Kyora.Requests
