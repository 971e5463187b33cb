import Kyora.Deliveries.Basic
import Kyora.Inbox.Mail

/-! # Delivery records in delivery order

  The records of one agent are written in the order in which they were handed
  over, and each taker hands over what it took. What is missing is that takes
  and hand-overs come in the same order: between a turn boundary's take and the
  hand-over in `deliver` a tool call may take and hand over its own batch. The
  records are in delivery order in every run without such a call.
-/

namespace Kyora.Deliveries

open Trace (TraceEvent Posted)

/-! ### Records -/

/-- The messages of `me` that a record lists as delivered. -/
def deliveredBy (me : NodeId) : TraceEvent → List Nat
  | .messageDelivered node messages _ => if node = me then messages else []
  | _ => []

/-- The delivery records of `me`, concatenated in trace order. -/
def deliveredIds (me : NodeId) (events : List TraceEvent) : List Nat :=
  events.flatMap (deliveredBy me)

@[simp] theorem deliveredIds_nil (me : NodeId) : deliveredIds me [] = [] := rfl

@[simp] theorem deliveredIds_append (me : NodeId) (events events' : List TraceEvent) :
    deliveredIds me (events ++ events') = deliveredIds me events ++ deliveredIds me events' :=
  List.flatMap_append

@[simp] theorem deliveredIds_delivered (me : NodeId) (messages : List Nat) (via : Delivery) :
    deliveredIds me [.messageDelivered me messages via] = messages := by
  simp [deliveredIds, deliveredBy]

@[simp] theorem deliveredIds_sent (me : NodeId) (message : Posted) :
    deliveredIds me [.messageSent message] = [] := rfl

/-- The messages taken from the mailbox, in the order in which they were taken. -/
def State.takenIds (s : State) : List Nat := s.inbox.delivered.map Envelope.id

/-- Every batch is handed over and every record is written. -/
def State.Settled (s : State) : Prop :=
  s.turn.unrecorded = [] ∧ s.holding = [] ∧ Chain.unfinished s.recorded = []

/-- The delivery records list the messages in the order in which they were taken. -/
structure InOrder (cfg : Inbox.Config) (s : State) : Prop where
  isPrefix : deliveredIds cfg.me s.trace <+: s.takenIds
  complete : s.Settled → deliveredIds cfg.me s.trace = s.takenIds

/-- No tool call takes messages while the agent's own loop has taken some
    without handing their record over. -/
def NotOvertaken (cfg : Inbox.Config) (s : State) (l : Label) : Prop :=
  ∀ call inbox taken, l = .take call → s.take cfg call.pick = some (inbox, taken) →
    taken ≠ [] → s.turn.unrecorded = []

/-! ### Takes -/

theorem take_delivered {cfg : Inbox.Config} {s : State} {pick : Inbox.Pick}
    {inbox : Inbox.State} {taken : List Envelope} (h : s.take cfg pick = some (inbox, taken)) :
    inbox.delivered = s.inbox.delivered ++ taken := by
  obtain ⟨r, -, heq⟩ := Option.map_eq_some_iff.mp h
  obtain ⟨rfl, rfl⟩ := Prod.mk.inj heq
  simp [Inbox.State.delivered, Inbox.State.handOver]

/-- Other tasks take nothing. -/
theorem delivered_foreign {cfg : Inbox.Config} {i i' : Inbox.State} {l : Inbox.Label}
    (h : Inbox.step cfg i l = some i') (htake : ∀ pick, l ≠ .take pick)
    (hidle : ∀ shut, l ≠ .idle shut) : i'.delivered = i.delivered := by
  have hpost : ∀ {u v : Inbox.State} {e : Envelope}, u.post e = some v →
      u.delivered = i.delivered → v.delivered = i.delivered := by
    intro u v e hv hu
    obtain ⟨r, -, rfl⟩ := Option.map_eq_some_iff.mp hv
    exact hu
  cases Inbox.fires_of_step h with
  | take pick htake' => exact absurd rfl (htake pick)
  | idleDeliver shut hqueue htake' => exact absurd rfl (hidle shut)
  | deliver e hmem hv => exact hpost hv rfl
  | notify c id o hkid hv => exact hpost hv rfl
  | conclude e hmem hv => exact hpost hv rfl
  | charged o =>
    -- How long the text of the outcome is does not matter here.
    generalize (Inbox.renderOutcome cfg o).length = n
    rfl
  | _ => rfl

/-! ### The invariant -/

/-- The records are those of the chain in order; what was taken is what the chain
    lists, then what the tool call and then what the own loop holds. -/
structure Aligned (cfg : Inbox.Config) (s : State) : Prop where
  chained : Chain.Chained s.recorded
  written : s.trace = Chain.finished s.recorded
  taken : s.takenIds = deliveredIds cfg.me (Chain.items s.recorded) ++
    s.holding.map Envelope.id ++ s.turn.unrecorded.map Envelope.id

theorem aligned_foreign {cfg : Inbox.Config} {s : State} {l : Inbox.Label} {i : Inbox.State}
    (h : Aligned cfg s) (hstep : Inbox.step cfg s.inbox l = some i)
    (htake : ∀ pick, l ≠ .take pick) (hidle : ∀ shut, l ≠ .idle shut) :
    Aligned cfg { s with inbox := i } := by
  refine ⟨h.chained, h.written, ?_⟩
  show i.delivered.map Envelope.id = _
  rw [delivered_foreign hstep htake hidle]
  exact h.taken

/-- A record joins the chain. -/
theorem items_record (cfg : Inbox.Config) (s : State) (taken : List Envelope) (via : Delivery) :
    deliveredIds cfg.me (Chain.items (s.record cfg taken via).recorded) =
      deliveredIds cfg.me (Chain.items s.recorded) ++ taken.map Envelope.id := by
  simp only [State.record, Chain.items_submit, deliveredIds_append, deliveredIds_delivered]

theorem aligned_step {cfg : Inbox.Config} {s t : State} {l : Label} (h : Aligned cfg s)
    (hok : NotOvertaken cfg s l) (hstep : step cfg s l = some t) : Aligned cfg t := by
  have htaken := h.taken
  cases l with
  | inbox l =>
    simp only [step] at hstep
    split at hstep
    · next hforeign =>
      obtain ⟨i, hi, rfl⟩ := Option.map_eq_some_iff.mp hstep
      refine aligned_foreign h hi ?_ ?_
      · rintro pick rfl
        cases hforeign
      · rintro shut rfl
        cases hforeign
    · cases hstep
  | userTurn =>
    simp only [step] at hstep
    split at hstep
    · next hturn =>
      obtain ⟨⟨inbox, taken⟩, htake, rfl⟩ := Option.map_eq_some_iff.mp hstep
      refine ⟨h.chained, h.written, ?_⟩
      show inbox.delivered.map Envelope.id = _
      rw [hturn] at htaken
      rw [take_delivered htake, List.map_append]
      simp only [State.takenIds, Turn.unrecorded, List.map_nil, List.append_nil] at htaken
      rw [htaken]
      rfl
    · cases hstep
  | idle shut =>
    simp only [step] at hstep
    split at hstep
    · next hturn =>
      obtain ⟨r, hr, rfl⟩ := Option.map_eq_some_iff.mp hstep
      rw [hturn] at htaken
      split
      · next b hb =>
        refine ⟨h.chained, h.written, ?_⟩
        simp only [State.takenIds, Turn.unrecorded, List.map_nil, List.append_nil,
          Inbox.State.delivered] at htaken
        simp only [State.takenIds, Inbox.State.delivered, Inbox.State.handOver,
          List.flatten_append, List.map_append, htaken, Turn.unrecorded]
        simp [State.holding]
      · refine ⟨h.chained, h.written, ?_⟩
        rw [← hturn] at htaken
        exact htaken
    · cases hstep
  | deliver =>
    simp only [step, stepDeliver] at hstep
    split at hstep
    · next taken hturn =>
      rw [hturn] at htaken
      split at hstep
      · next hempty =>
        obtain rfl := Option.some.inj hstep
        refine ⟨h.chained, h.written, ?_⟩
        rw [List.isEmpty_iff.mp hempty] at htaken
        exact htaken
      · split at hstep
        · cases hstep
        · next hheld =>
          obtain rfl := Option.some.inj hstep
          refine ⟨Chain.submit_chained h.chained _, ?_, ?_⟩
          · exact h.written.trans (Chain.finished_submit _ _).symm
          · have hnone : s.holding = [] := by
              simp only [State.holding, hheld]
            rw [hnone] at htaken
            show s.takenIds = deliveredIds cfg.me
              (Chain.items (s.record cfg taken .turn).recorded) ++ s.holding.map Envelope.id ++ []
            rw [items_record, hnone, htaken]
            simp [Turn.unrecorded]
    · cases hstep
  | written =>
    simp only [step] at hstep
    split at hstep
    · next i hturn =>
      split at hstep
      · obtain rfl := Option.some.inj hstep
        refine ⟨h.chained, h.written, ?_⟩
        rw [hturn] at htaken
        exact htaken
      · cases hstep
    · cases hstep
  | take call =>
    simp only [step, stepTake] at hstep
    split at hstep
    · cases hstep
    · next hheld =>
      obtain ⟨⟨inbox, taken⟩, htake, rfl⟩ := Option.map_eq_some_iff.mp hstep
      refine ⟨h.chained, h.written, ?_⟩
      have hnone : s.holding = [] := by
        simp only [State.holding, hheld]
      rw [hnone, List.map_nil, List.append_nil] at htaken
      show inbox.delivered.map Envelope.id = _
      rw [take_delivered htake, List.map_append]
      rw [show s.inbox.delivered.map Envelope.id = s.takenIds from rfl, htaken]
      by_cases hempty : taken = []
      · simp [hempty, State.holding]
      · -- The own loop has nothing to hand over, so this batch is the last.
        rw [hok call inbox taken rfl htake hempty]
        simp [hempty, State.holding]
  | handOver =>
    obtain ⟨⟨taken, via⟩, hheld, rfl⟩ := Option.map_eq_some_iff.mp hstep
    refine ⟨Chain.submit_chained h.chained _, ?_, ?_⟩
    · exact h.written.trans (Chain.finished_submit _ _).symm
    · show s.takenIds = deliveredIds cfg.me (Chain.items (s.record cfg taken via).recorded) ++
        [] ++ s.turn.unrecorded.map Envelope.id
      rw [items_record, htaken]
      simp [State.holding, hheld]
  | stage o id sentAt =>
    simp only [step, stepStage] at hstep
    split at hstep
    · cases hstep
    · obtain ⟨i, hi, rfl⟩ := Option.map_eq_some_iff.mp hstep
      have hforeign := aligned_foreign h hi (by intro _ heq; cases heq) (by intro _ heq; cases heq)
      split
      · refine ⟨Chain.submit_chained hforeign.chained _, ?_, ?_⟩
        · exact hforeign.written.trans (Chain.finished_submit _ _).symm
        · rw [Chain.items_submit, deliveredIds_append, deliveredIds_sent, List.append_nil]
          exact hforeign.taken
      · exact hforeign
  | start i =>
    obtain ⟨recorded, hstart, rfl⟩ := Option.map_eq_some_iff.mp hstep
    obtain ⟨hchained, hfinished, -, hitems⟩ := Chain.start_chained h.chained hstart
    exact ⟨hchained, h.written.trans hfinished.symm, by rw [hitems]; exact htaken⟩
  | finish i =>
    obtain ⟨⟨event, recorded⟩, hfinish, hrest⟩ := Option.bind_eq_some_iff.mp hstep
    obtain ⟨hchained, hfinished, -, hitems⟩ := Chain.finish_chained h.chained hfinish
    have hnext : Aligned cfg { s with recorded, trace := s.trace ++ [event] } := by
      refine ⟨hchained, ?_, ?_⟩
      · show s.trace ++ [event] = _
        rw [h.written, hfinished]
      · rw [hitems]
        exact htaken
    simp only at hrest
    split at hrest
    · next message =>
      obtain ⟨i', hi', rfl⟩ := Option.map_eq_some_iff.mp hrest
      exact aligned_foreign hnext hi' (by intro _ heq; cases heq) (by intro _ heq; cases heq)
    · obtain rfl := Option.some.inj hrest
      exact hnext

theorem Aligned.inOrder {cfg : Inbox.Config} {s : State} (h : Aligned cfg s) :
    InOrder cfg s := by
  have hitems := Chain.finished_append_unfinished h.chained
  have htaken := h.taken
  rw [← hitems, deliveredIds_append, ← h.written] at htaken
  constructor
  · rw [htaken, List.append_assoc, List.append_assoc]
    exact List.prefix_append _ _
  · rintro ⟨hturn, hheld, hdone⟩
    rw [htaken, hturn, hheld, hdone]
    simp

/-- In a run in which no tool call takes messages between a turn boundary's take
    and the hand-over of its record, the delivery records are in delivery order. -/
theorem delivery_order (cfg : Inbox.Config) (s : State)
    (h : (deliveries cfg).ReachableBy (NotOvertaken cfg) s) : InOrder cfg s := by
  have hinit : Aligned cfg (deliveries cfg).init := ⟨trivial, rfl, rfl⟩
  have haligned := LTS.System.invariant (P := Aligned cfg) hinit
    (fun _ _ _ hs hok hstep => aligned_step hs hok hstep) s h
  exact haligned.inOrder

/-! ### Runs -/

/-- A plain message to the agent of the default configuration. -/
def hello (id : Nat) : Envelope := ⟨id, 2, 1, .message, "hi", none, none⟩

def posted (id : Nat) : List Label := [.inbox (.accept (hello id)), .inbox (.deliver (hello id))]

/-- A turn boundary and a `receive` one after the other. -/
def orderedLabels : List Label :=
  posted 1 ++ [.userTurn] ++ posted 2 ++
    [.deliver, .take .receive, .handOver, .start 0, .finish 0, .written, .start 1, .finish 1]

/-- A `receive` between the take and the hand-over of a turn boundary. -/
def overtakenLabels : List Label :=
  posted 1 ++ [.userTurn] ++ posted 2 ++
    [.take .receive, .handOver, .deliver, .start 0, .finish 0, .start 1, .finish 1, .written]

/-- The own loop has handed everything over when a call takes messages. -/
def notOvertaken (s : State) : Label → Bool
  | .take _ => s.turn.unrecorded.isEmpty
  | _ => true

theorem notOvertaken_ok (cfg : Inbox.Config) (s : State) (l : Label)
    (h : notOvertaken s l = true) : NotOvertaken cfg s l := by
  rintro call inbox taken rfl - -
  exact List.isEmpty_iff.mp h

theorem delivery_order_turn : ∃ s,
    (deliveries Inbox.defaultConfig).ReachableBy (NotOvertaken Inbox.defaultConfig) s ∧
    deliveredIds 1 s.trace = [1, 2] ∧ InOrder Inbox.defaultConfig s := by
  have hrun : ((deliveries Inbox.defaultConfig).runIf notOvertaken
      (deliveries Inbox.defaultConfig).init orderedLabels).map
        (fun s => deliveredIds 1 s.trace) = some [1, 2] := by
    decide +kernel
  obtain ⟨s, hs, hids⟩ := Option.map_eq_some_iff.mp hrun
  have hok := notOvertaken_ok Inbox.defaultConfig
  have hreach := (LTS.System.RunBy.runIf hok .init hs).reachableBy
  exact ⟨s, hreach, hids, delivery_order Inbox.defaultConfig s hreach⟩

/-- The record of the later take comes first, although every record is written. -/
theorem delivery_order_overtaken :
    ¬ ∀ cfg s, (deliveries cfg).Reachable s → InOrder cfg s := by
  intro hall
  have hrun : ((deliveries Inbox.defaultConfig).run (deliveries Inbox.defaultConfig).init
      overtakenLabels).map (fun s => (deliveredIds 1 s.trace, s.takenIds,
        s.turn.unrecorded, s.holding, (Chain.unfinished s.recorded).length)) =
      some ([2, 1], [1, 2], [], [], 0) := by
    decide +kernel
  obtain ⟨s, hs, heq⟩ := Option.map_eq_some_iff.mp hrun
  simp only [Prod.mk.injEq] at heq
  obtain ⟨hids, htaken, hturn, hheld, hdone⟩ := heq
  have hcomplete := (hall _ s (LTS.System.reachable_of_run hs)).complete
    ⟨hturn, hheld, List.length_eq_zero_iff.mp hdone⟩
  rw [htaken, show Inbox.defaultConfig.me = 1 from rfl, hids] at hcomplete
  cases hcomplete

end Kyora.Deliveries
