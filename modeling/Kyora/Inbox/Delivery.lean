import Kyora.Inbox.Steps

/-! # The delivery budget

  Between two model requests of an agent the text handed to it stays within
  the delivery budget, or it is a single item. The counter `turn` is the sum
  of what was handed over, and since every rendering has a header it is zero
  exactly at the start.
-/

namespace Kyora.Inbox

/-- The items of a turn: positive sizes, counted by `turn`, and within the
    budget unless there is only one. -/
structure Metered (cfg : Config) (s : State) : Prop where
  turn : s.box.turn = s.items.sum
  positive : ∀ n ∈ s.items, 0 < n
  budget : s.items.sum ≤ cfg.limits.deliveryChars ∨ s.items.length = 1

/-- Nothing was handed over exactly when the counter is zero. -/
theorem Metered.turn_eq_zero {cfg : Config} {s : State} (h : Metered cfg s) :
    s.box.turn = 0 ↔ s.items = [] := by
  rw [h.turn]
  constructor
  · intro hzero
    match hitems : s.items with
    | [] => rfl
    | n :: ns =>
      have hpos := h.positive n (by simp [hitems])
      rw [hitems, List.sum_cons] at hzero
      omega
  · intro hnil
    rw [hnil]; rfl

theorem renderOutcome_pos (cfg : Config) (o : Outcome) : 0 < (renderOutcome cfg o).length :=
  render_length_pos _ _ _ _ _

/-- One more item, if it fits or is the first. -/
theorem Metered.item {cfg : Config} {s t : State} {n : Nat} (h : Metered cfg s)
    (hpos : 0 < n) (hfit : s.box.turn = 0 ∨ s.box.turn + n ≤ cfg.limits.deliveryChars)
    (hturn : t.box.turn = s.box.turn + n) (hitems : t.items = s.items ++ [n]) :
    Metered cfg t := by
  constructor
  · rw [hturn, hitems, h.turn, List.sum_append, List.sum_singleton]
  · intro m hm
    rw [hitems] at hm
    rcases List.mem_append.mp hm with hm | hm
    · exact h.positive m hm
    · rw [List.mem_singleton.mp hm]
      exact hpos
  · rw [hitems]
    rcases hfit with hzero | hfit
    · rw [h.turn_eq_zero.mp hzero]
      exact Or.inr rfl
    · left
      rw [List.sum_append, List.sum_singleton, ← h.turn]
      exact hfit

/-- A delivery keeps the meter: nothing, one first item, or a fitting batch. -/
theorem Metered.take {cfg : Config} {s : State} {pick : Envelope → Bool}
    {box : Mailbox.State} {b : Mailbox.Batch} (h : Metered cfg s)
    (htake : Mailbox.take s.box cfg.limits.deliveryChars pick (Envelope.size cfg.names) =
      some (box, b)) : Metered cfg (s.handOver cfg box b) := by
  obtain ⟨-, rfl, rfl⟩ := Mailbox.take_eq_some.mp htake
  have hfits := Mailbox.handed_fits s.box cfg.limits.deliveryChars pick
    (Envelope.size cfg.names)
  generalize Mailbox.handed s.box cfg.limits.deliveryChars pick
    (Envelope.size cfg.names) = taken at hfits ⊢
  constructor
  · show s.box.turn + (taken.map _).sum = (s.items ++ taken.map _).sum
    rw [List.sum_append, h.turn]
  · intro n hn
    rcases List.mem_append.mp hn with hn | hn
    · exact h.positive n hn
    · obtain ⟨e, -, rfl⟩ := List.mem_map.mp hn
      exact e.size_pos cfg.names
  · show (s.items ++ taken.map _).sum ≤ _ ∨ (s.items ++ taken.map _).length = 1
    rcases hfits with hnil | ⟨hzero, hone⟩ | hload
    · rw [hnil, List.map_nil, List.append_nil]
      exact h.budget
    · rw [h.turn_eq_zero.mp hzero, List.nil_append, List.length_map]
      exact Or.inr hone
    · left
      rw [List.sum_append, ← h.turn]
      exact hload

/-- A push hands nothing over. -/
theorem post_turn {s t : State} {e : Envelope} (h : s.post e = some t) :
    t.box.turn = s.box.turn ∧ t.items = s.items := by
  obtain ⟨box, r, hpush, rfl⟩ := post_eq_some.mp h
  refine ⟨?_, rfl⟩
  show box.turn = s.box.turn
  cases he : e.plain
  · rw [Mailbox.push_terminal he] at hpush
    rw [← (Prod.mk.inj (Option.some.inj hpush)).1]
  · obtain ⟨-, ⟨-, -, rfl⟩ | ⟨-, -, rfl⟩⟩ := Mailbox.push_plain he hpush
    · rfl
    · rfl

theorem Metered.of_eq {cfg : Config} {s t : State} (h : Metered cfg s)
    (heq : t.box.turn = s.box.turn ∧ t.items = s.items) : Metered cfg t :=
  ⟨by rw [heq.1, heq.2, h.turn], by rw [heq.2]; exact h.positive,
    by rw [heq.2]; exact h.budget⟩

theorem metered_step {cfg : Config} {s t : State} {l : Label} (h : Metered cfg s)
    (hstep : step cfg s l = some t) : Metered cfg t := by
  cases fires_of_step hstep with
  | deliver e hmem hpost =>
    obtain ⟨hturn, hitems⟩ := post_turn hpost
    exact h.of_eq ⟨hturn, hitems⟩
  | notify c id o hkid hpost =>
    obtain ⟨hturn, hitems⟩ := post_turn hpost
    exact h.of_eq ⟨hturn, hitems⟩
  | conclude e hmem hpost =>
    obtain ⟨hturn, hitems⟩ := post_turn hpost
    exact h.of_eq ⟨hturn, hitems⟩
  | take pick htake => exact h.take htake
  | idleDeliver shut hqueue htake => exact h.take htake
  | charged o hfit => exact h.item (renderOutcome_pos cfg o) hfit rfl rfl
  | newTurn => exact ⟨rfl, by simp, Or.inl (Nat.zero_le _)⟩
  | _ => exact ⟨h.turn, h.positive, h.budget⟩

theorem metered_init (cfg : Config) : Metered cfg (inbox cfg).init :=
  ⟨rfl, by simp [inbox, State.init], Or.inl (Nat.zero_le _)⟩

theorem metered_of_reachable {cfg : Config} {s : State} (h : (inbox cfg).Reachable s) :
    Metered cfg s :=
  LTS.System.invariant (metered_init cfg) (fun _ _ _ hs _ hstep => metered_step hs hstep) s h

/-! ### Bounded deliveries -/

/-- What holds of the deliveries of an agent after any run. -/
structure Bounded (cfg : Config) (s : State) : Prop where
  /-- Since the last `newTurn` the handed over characters are within the
      budget, unless exactly one item was handed over. -/
  budget : s.items.sum ≤ cfg.limits.deliveryChars ∨ s.items.length = 1
  positive : ∀ n ∈ s.items, 0 < n
  /-- The first item of a turn goes whole whatever its size. -/
  first : s.items = [] → ∀ {pick : Envelope → Bool} {e : Envelope} {q : List Envelope}
    {t : Mailbox.State} {b : Mailbox.Batch}, s.box.queue.filter pick = e :: q →
    Mailbox.take s.box cfg.limits.deliveryChars pick (Envelope.size cfg.names) = some (t, b) →
    ∃ rest, b.taken = e :: rest
  firstReport : s.items = [] → ∀ o,
    (Mailbox.charge s.box (renderOutcome cfg o).length cfg.limits.deliveryChars).2 = true
  /-- Every batch is the longest prefix of the selection that fits. -/
  longest : ∀ {pick : Envelope → Bool} {t : Mailbox.State} {b : Mailbox.Batch},
    Mailbox.take s.box cfg.limits.deliveryChars pick (Envelope.size cfg.names) = some (t, b) →
    b.taken <+: s.box.queue.filter pick ∧
      Selection.Fits (Envelope.size cfg.names) cfg.limits.deliveryChars s.box.turn b.taken ∧
      ∀ p, p <+: s.box.queue.filter pick →
        Selection.Fits (Envelope.size cfg.names) cfg.limits.deliveryChars s.box.turn p →
        p.length ≤ b.taken.length
  /-- What is not taken keeps its place. -/
  rest : ∀ {pick : Envelope → Bool} {t : Mailbox.State} {b : Mailbox.Batch},
    Mailbox.take s.box cfg.limits.deliveryChars pick (Envelope.size cfg.names) = some (t, b) →
    t.queue.Sublist s.box.queue ∧ s.box.queue.Perm (b.taken ++ t.queue)
  /-- A delivery of `idle` is a take of everything. -/
  idle : ∀ {shut : Bool} {t : Mailbox.State} {b : Mailbox.Batch},
    Mailbox.idle s.box shut cfg.limits.deliveryChars (Envelope.size cfg.names) =
      some (t, .deliver b) →
    Mailbox.take s.box cfg.limits.deliveryChars (fun _ => true) (Envelope.size cfg.names) =
      some (t, b)

/-- Deliveries and reports share one budget in every turn of every run. -/
theorem delivery_budget (cfg : Config) {s : State} (h : (inbox cfg).Reachable s) :
    Bounded cfg s := by
  have hm := metered_of_reachable h
  refine ⟨hm.budget, hm.positive, ?_, ?_, ?_, ?_, ?_⟩
  · intro hnil pick e q t b hq htake
    obtain ⟨-, -, rfl⟩ := Mailbox.take_eq_some.mp htake
    exact Mailbox.handed_fresh (hm.turn_eq_zero.mpr hnil) hq
  · intro hnil o
    have hzero := hm.turn_eq_zero.mpr hnil
    rw [Mailbox.charge_true.mpr ⟨Or.inl hzero, rfl⟩]
  · intro pick t b htake
    obtain ⟨-, -, rfl⟩ := Mailbox.take_eq_some.mp htake
    exact ⟨Mailbox.handed_isPrefix _ _ _ _, Mailbox.handed_fits _ _ _ _,
      fun p hp hfits => Mailbox.handed_longest hp hfits⟩
  · intro pick t b htake
    obtain ⟨-, rfl, rfl⟩ := Mailbox.take_eq_some.mp htake
    exact ⟨Mailbox.kept_sublist _ _ _ _, Mailbox.queue_perm _ _ _ _⟩
  · intro shut t b hidle
    rcases Mailbox.idle_cases hidle with
      ⟨-, b', hb, htake⟩ | ⟨-, -, -, hb, -⟩ | ⟨-, -, hb, -⟩
    · cases hb
      exact htake
    · cases hb
    · cases hb

/-- Two messages and a budget that fits neither: the first goes whole and
    alone, the second at the next turn. -/
def oversizedLabels : List Label :=
  let m : Nat → Envelope := fun id => ⟨id, 7, 1, .message, "hello", none, none⟩
  [.accept (m 0), .deliver (m 0), .accept (m 1), .deliver (m 1), .take .all,
    .charge ⟨7, .completed, "done"⟩, .newTurn, .idle true, .take .all]

/-- A mailbox with a small delivery budget. -/
def tightConfig : Config := ⟨1, { Limits.default with deliveryChars := 20 }, fun _ => "a"⟩

theorem delivery_budget_oversized : ∃ s,
    (inbox tightConfig).run (inbox tightConfig).init oversizedLabels = some s ∧
      s.batches.map List.length = [1, 1, 0] ∧ s.items = [32] ∧ Bounded tightConfig s := by
  have hrun : ((inbox tightConfig).run (inbox tightConfig).init oversizedLabels).map
      (fun s => (s.batches.map List.length, s.items)) = some ([1, 1, 0], [32]) := by
    decide +kernel
  obtain ⟨s, hs, heq⟩ := Option.map_eq_some_iff.mp hrun
  obtain ⟨hbatches, hitems⟩ := Prod.mk.inj heq
  exact ⟨s, hs, hbatches, hitems,
    delivery_budget tightConfig (LTS.System.reachable_of_run hs)⟩

end Kyora.Inbox
