import Kyora.Framework.Selection
import Kyora.Mailbox.Basic

/-! # What each mailbox operation does

  One lemma per operation. The loop of `take` computes the longest fitting
  prefix of the selected envelopes and leaves the rest of the queue in place.
-/

namespace Kyora.Mailbox

/-! ### The loop of `take` -/

section loop

variable {budget : Nat} {pick : Envelope → Bool} {size : Envelope → Nat} {fresh : Bool}

/-- After the first envelope that did not fit, every envelope stays. -/
theorem foldl_drain_full (d : Drain) (h : d.full = true) (q : List Envelope) :
    q.foldl (drain budget pick size fresh) d =
      { d with
        left := d.left + ((q.filter pick).map Envelope.from_ : List NodeId)
        rest := d.rest ++ q } := by
  induction q generalizing d with
  | nil => simp
  | cons e q ih =>
    rw [List.foldl_cons]
    by_cases hpick : pick e = true
    · have hstep : drain budget pick size fresh d e =
          { d with full := true, left := e.from_ ::ₘ d.left, rest := d.rest ++ [e] } := by
        simp [drain, hpick, h]
      rw [hstep, ih _ rfl, List.filter_cons_of_pos hpick]
      simp only [h, List.map_cons, List.append_assoc, List.singleton_append,
        ← Multiset.cons_coe, Multiset.cons_add, Multiset.add_cons]
    · have hstep : drain budget pick size fresh d e = { d with rest := d.rest ++ [e] } := by
        simp [drain, hpick]
      rw [hstep, ih { d with rest := d.rest ++ [e] } h, List.filter_cons_of_neg hpick]
      simp

/-- The loop takes the longest fitting prefix of the selection. -/
theorem foldl_drain (d : Drain) (h : d.full = false) (q : List Envelope) :
    ∃ full, q.foldl (drain budget pick size fresh) d =
      let p := Selection.fitting size budget (fresh && d.taken.isEmpty) d.used (q.filter pick)
      let rest := Selection.removeFirst pick p.length q
      { taken := d.taken ++ p
        left := d.left + ((rest.filter pick).map Envelope.from_ : List NodeId)
        rest := d.rest ++ rest
        used := d.used + Selection.load size p
        full } := by
  induction q generalizing d with
  | nil => exact ⟨d.full, by simp [Selection.fitting]⟩
  | cons e q ih =>
    rw [List.foldl_cons]
    by_cases hpick : pick e = true
    · by_cases hfits : (fresh && d.taken.isEmpty || decide (d.used + size e ≤ budget)) = true
      · have hstep : drain budget pick size fresh d e =
            { d with used := d.used + size e, taken := d.taken ++ [e] } := by
          unfold drain
          rw [if_pos hpick, if_pos (by rw [h, hfits]; rfl)]
        rw [hstep]
        obtain ⟨full, hq⟩ := ih { d with used := d.used + size e, taken := d.taken ++ [e] } h
        refine ⟨full, ?_⟩
        rw [hq, List.filter_cons_of_pos hpick]
        have hempty : (fresh && (d.taken ++ [e]).isEmpty) = false := by simp
        simp only [hempty, Selection.fitting, hfits, if_true, List.length_cons,
          Selection.removeFirst_cons_of_pos hpick, Selection.load_cons, List.append_assoc,
          List.singleton_append, Nat.add_assoc]
      · have hstep : drain budget pick size fresh d e =
            { d with full := true, left := e.from_ ::ₘ d.left, rest := d.rest ++ [e] } := by
          unfold drain
          rw [if_pos hpick, if_neg (by rw [h]; simpa using hfits)]
        refine ⟨true, ?_⟩
        rw [hstep, foldl_drain_full _ rfl]
        simp only [List.filter_cons_of_pos hpick, Selection.fitting, hfits,
          Bool.false_eq_true, if_false, List.length_nil, Selection.removeFirst_zero,
          List.append_nil, Selection.load_nil, Nat.add_zero, List.map_cons,
          List.append_assoc, List.singleton_append, ← Multiset.cons_coe, Multiset.cons_add,
          Multiset.add_cons]
    · have hstep : drain budget pick size fresh d e = { d with rest := d.rest ++ [e] } := by
        simp [drain, hpick]
      rw [hstep]
      obtain ⟨full, hq⟩ := ih { d with rest := d.rest ++ [e] } h
      refine ⟨full, ?_⟩
      have hneg : pick e = false := by simpa using hpick
      rw [hq, List.filter_cons_of_neg hpick]
      simp only [Selection.removeFirst_cons_of_neg hneg, List.filter_cons_of_neg hpick,
        List.append_assoc, List.singleton_append]

end loop

/-! ### Taking -/

/-- What a delivery hands over. -/
def handed (s : State) (budget : Nat) (pick : Envelope → Bool) (size : Envelope → Nat) :
    List Envelope :=
  Selection.fitting size budget (s.turn == 0) s.turn (s.queue.filter pick)

/-- What a delivery leaves queued. -/
def kept (s : State) (budget : Nat) (pick : Envelope → Bool) (size : Envelope → Nat) :
    List Envelope :=
  Selection.removeFirst pick (handed s budget pick size).length s.queue

theorem take_eq_some {s t : State} {budget : Nat} {pick : Envelope → Bool}
    {size : Envelope → Nat} {b : Batch} :
    take s budget pick size = some (t, b) ↔
      (handed s budget pick size).countP Envelope.plain ≤ s.plain ∧
      t = { s with
        queue := kept s budget pick size
        turn := s.turn + Selection.load size (handed s budget pick size)
        seen := s.seen ∪ terminals (handed s budget pick size)
        plain := s.plain - (handed s budget pick size).countP Envelope.plain } ∧
      b = { taken := handed s budget pick size
            left := (((kept s budget pick size).filter pick).map Envelope.from_ : List NodeId)
            queued := (kept s budget pick size).length } := by
  obtain ⟨full, hloop⟩ := @foldl_drain budget pick size (s.turn == 0)
    { taken := [], left := 0, rest := [], used := s.turn, full := false } rfl s.queue
  simp only [List.isEmpty_nil, Bool.and_true, List.nil_append, Multiset.zero_add] at hloop
  unfold take
  rw [hloop]
  simp only [Option.map_eq_some_iff, checkedSub_eq_some, Prod.mk.injEq]
  unfold kept handed
  constructor
  · rintro ⟨plain, ⟨hle, rfl⟩, rfl, rfl⟩
    exact ⟨hle, rfl, rfl⟩
  · rintro ⟨hle, rfl, rfl⟩
    exact ⟨_, ⟨hle, rfl⟩, rfl, rfl⟩

section delivery

variable (s : State) (budget : Nat) (pick : Envelope → Bool) (size : Envelope → Nat)

theorem handed_isPrefix : handed s budget pick size <+: s.queue.filter pick :=
  Selection.fitting_isPrefix _ _ _

theorem handed_eq_take : handed s budget pick size =
    (s.queue.filter pick).take (handed s budget pick size).length :=
  List.prefix_iff_eq_take.mp (handed_isPrefix s budget pick size)

/-- Nothing in the queue is lost or duplicated by a delivery. -/
theorem queue_perm :
    s.queue.Perm (handed s budget pick size ++ kept s budget pick size) := by
  unfold kept
  nth_rewrite 1 [handed_eq_take]
  exact Selection.removeFirst_perm _ _

theorem kept_sublist : (kept s budget pick size).Sublist s.queue :=
  Selection.removeFirst_sublist _ _

theorem countP_queue (q : Envelope → Bool) : s.queue.countP q =
    (handed s budget pick size).countP q + (kept s budget pick size).countP q := by
  rw [(queue_perm s budget pick size).countP_eq, List.countP_append]

/-- For a class of envelopes that is selected as a whole, or not at all, what
    is handed over was ahead of what stays. -/
theorem filter_handed_append_filter_kept {q : Envelope → Bool}
    (hq : (∀ e, q e = true → pick e = true) ∨ ∀ e, q e = true → pick e = false) :
    (handed s budget pick size).filter q ++ (kept s budget pick size).filter q =
      s.queue.filter q := by
  have h := Selection.filter_take_append_filter_removeFirst hq
    (handed s budget pick size).length s.queue
  rw [← handed_eq_take] at h
  exact h

theorem handed_fits : Selection.Fits size budget s.turn (handed s budget pick size) :=
  Selection.fitting_fits _ _

variable {s budget pick size}

/-- A delivery is the longest prefix of the selection that fits. -/
theorem handed_longest {p : List Envelope} (hp : p <+: s.queue.filter pick)
    (h : Selection.Fits size budget s.turn p) :
    p.length ≤ (handed s budget pick size).length :=
  Selection.fitting_longest _ hp h

/-- In a fresh turn the first selected envelope goes, whatever its size. -/
theorem handed_fresh (h : s.turn = 0) {e : Envelope} {q : List Envelope}
    (hq : s.queue.filter pick = e :: q) : ∃ rest, handed s budget pick size = e :: rest := by
  unfold handed
  rw [h, hq]
  exact Selection.fitting_fresh e q

theorem take_isSome (h : s.queue.countP Envelope.plain ≤ s.plain) :
    ∃ r, take s budget pick size = some r := by
  have hcount := countP_queue s budget pick size Envelope.plain
  exact ⟨_, take_eq_some.mpr ⟨by omega, rfl, rfl⟩⟩

end delivery

theorem mem_terminals {xs : List Envelope} {c : NodeId} :
    c ∈ terminals xs ↔ ∃ e ∈ xs, e.plain = false ∧ e.from_ = c := by
  simp [terminals, and_assoc]

/-! ### Pushing -/

theorem clear_plain {s : State} {e : Envelope} (h : e.plain = true) :
    clear s e = (checkedSub s.reserved 1).map fun reserved => { s with reserved } :=
  if_pos h

theorem clear_terminal {s : State} {e : Envelope} (h : e.plain = false) :
    clear s e = some { s with
      awaiting := s.awaiting.erase e.from_
      concluded := insert e.from_ s.concluded } := by
  simp [clear, h]

/-- Queueing a plain message moves its place from `reserved` to `plain`. -/
theorem push_plain {s t : State} {e : Envelope} {r : Except Envelope Unit}
    (he : e.plain = true) (h : push s e = some (t, r)) :
    1 ≤ s.reserved ∧
      ((s.closed = false ∧ r = .ok () ∧ t = { s with
          reserved := s.reserved - 1, plain := s.plain + 1, queue := s.queue ++ [e] }) ∨
        (s.closed = true ∧ r = .error e ∧ t = { s with reserved := s.reserved - 1 })) := by
  unfold push at h
  rw [clear_plain he, Option.map_map, Option.map_eq_some_iff] at h
  obtain ⟨reserved, hsub, h⟩ := h
  obtain ⟨hle, rfl⟩ := checkedSub_eq_some.mp hsub
  refine ⟨hle, ?_⟩
  by_cases hclosed : s.closed = true
  · simp only [Function.comp_apply, if_pos hclosed, Prod.mk.injEq] at h
    exact Or.inr ⟨hclosed, h.2.symm, h.1.symm⟩
  · rw [Bool.not_eq_true] at hclosed
    simp only [Function.comp_apply, hclosed, Bool.false_eq_true, if_false, he,
      Bool.toNat_true, Prod.mk.injEq] at h
    exact Or.inl ⟨hclosed, h.2.symm, by rw [← h.1, hclosed]⟩

theorem push_plain_isSome {s : State} {e : Envelope} (he : e.plain = true)
    (h : 1 ≤ s.reserved) : ∃ r, push s e = some r := by
  unfold push
  rw [clear_plain he, checkedSub_of_le h]
  exact ⟨_, rfl⟩

/-- A terminal entry clears its child and bypasses the capacity. -/
theorem push_terminal {s : State} {e : Envelope} (he : e.plain = false) :
    push s e = some (
      { s with
        awaiting := s.awaiting.erase e.from_
        concluded := insert e.from_ s.concluded
        queue := if s.closed then s.queue else s.queue ++ [e] },
      if s.closed then .error e else .ok ()) := by
  unfold push
  rw [clear_terminal he]
  cases s.closed <;> simp [he]

/-! ### The other operations -/

theorem reserve_ok {s t : State} {capacity : Nat} :
    reserve s capacity = .ok t ↔ s.closed = false ∧ s.plain + s.reserved < capacity ∧
      t = { s with reserved := s.reserved + 1 } := by
  unfold reserve
  cases hclosed : s.closed
  · by_cases hroom : s.plain + s.reserved ≥ capacity
    · simp [hroom, Nat.not_lt.mpr hroom]
    · simp [hroom, Nat.lt_of_not_le hroom, eq_comm]
  · simp

theorem stage_true {s t : State} {agent : NodeId} :
    stage s agent = (t, true) ↔
      s.closed = false ∧ agent ∉ s.awaiting ∧ agent ∉ s.concluded ∧
      t = { s with
        concluded := insert agent s.concluded
        awaiting := insert agent s.awaiting } := by
  unfold stage
  by_cases h : (s.closed || decide (agent ∈ s.awaiting) || decide (agent ∈ s.concluded)) = true
  · rw [if_pos h]
    simp only [Prod.mk.injEq, Bool.false_eq_true, and_false, false_iff]
    rintro ⟨hopen, ha, hc, -⟩
    simp [hopen, ha, hc] at h
  · rw [if_neg h]
    simp only [Bool.or_eq_true, decide_eq_true_eq, not_or, Bool.not_eq_true] at h
    simp [h.1.1, h.1.2, h.2, eq_comm]

theorem stage_false {s t : State} {agent : NodeId} (h : stage s agent = (t, false)) : t = s := by
  unfold stage at h
  split at h
  · exact (Prod.mk.inj h).1.symm
  · cases (Prod.mk.inj h).2

theorem charge_true {s t : State} {cost budget : Nat} :
    charge s cost budget = (t, true) ↔
      (s.turn = 0 ∨ s.turn + cost ≤ budget) ∧ t = { s with turn := s.turn + cost } := by
  unfold charge
  by_cases h : (decide (s.turn > 0) && decide (s.turn + cost > budget)) = true
  · rw [if_pos h]
    simp only [Bool.and_eq_true, decide_eq_true_eq] at h
    simp only [Prod.mk.injEq, Bool.false_eq_true, and_false, false_iff]
    rintro ⟨hor, -⟩
    omega
  · rw [if_neg h]
    simp only [Bool.and_eq_true, decide_eq_true_eq, not_and] at h
    simp only [Prod.mk.injEq, and_true, eq_comm, iff_and_self]
    intro _
    omega

theorem charge_false {s t : State} {cost budget : Nat}
    (h : charge s cost budget = (t, false)) : t = s := by
  unfold charge at h
  split at h
  · exact (Prod.mk.inj h).1.symm
  · cases (Prod.mk.inj h).2

/-- The three answers of `idle`. -/
theorem idle_cases {s t : State} {shut : Bool} {budget : Nat} {size : Envelope → Nat}
    {r : Idle} (h : idle s shut budget size = some (t, r)) :
    (s.queue ≠ [] ∧ ∃ b, r = .deliver b ∧
      take s budget (fun _ => true) size = some (t, b)) ∨
    (s.queue = [] ∧ s.awaiting = ∅ ∧ s.reserved = 0 ∧ r = .done ∧
      t = { s with closed := s.closed || shut }) ∨
    (s.queue = [] ∧ ¬ (s.awaiting = ∅ ∧ s.reserved = 0) ∧ r = .wait ∧ t = s) := by
  unfold idle at h
  by_cases hqueue : s.queue = []
  · rw [if_neg (by simp [hqueue])] at h
    by_cases hnone : s.awaiting = ∅ ∧ s.reserved = 0
    · rw [if_pos hnone, Option.some.injEq, Prod.mk.injEq] at h
      exact Or.inr (Or.inl ⟨hqueue, hnone.1, hnone.2, h.2.symm, h.1.symm⟩)
    · rw [if_neg hnone, Option.some.injEq, Prod.mk.injEq] at h
      exact Or.inr (Or.inr ⟨hqueue, hnone, h.2.symm, h.1.symm⟩)
  · rw [if_pos (by simpa using hqueue), Option.map_eq_some_iff] at h
    obtain ⟨⟨t', b⟩, htake, heq⟩ := h
    obtain ⟨rfl, rfl⟩ := Prod.mk.inj heq
    exact Or.inl ⟨hqueue, b, rfl, htake⟩

end Kyora.Mailbox
