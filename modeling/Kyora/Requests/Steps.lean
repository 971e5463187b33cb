import Mathlib.Logic.Function.Basic
import Kyora.Requests.Basic

/-! # Steps of the requests

  A step accepts a send, or it is one of the task of a send, or it leaves the
  sends and their reservations alone.
-/

namespace Kyora.Requests

open Tree (Config Node ChildSpec Owner LlmCall)

/-- A task that has not given up its reservation in a mailbox yet. -/
def Phase.holds : Phase → Bool
  | .waiting | .recording | .pushing => true
  | .returning | .done _ => false

def Task.holds (b : Nat) : Task → Bool
  | .send x => x.recipient == b && x.phase.holds
  | .other .. => false

/-- The accepted sends that have not given up their reservation in a mailbox. -/
def State.holding (s : State) (b : Nat) : Nat := s.tasks.countP (Task.holds b)

/-- Replacing a task counts the new one for the old one. -/
theorem holding_setTask {s : State} {k : Nat} {old : Task} (h : s.tasks[k]? = some old)
    (task : Task) (b : Nat) : (s.tasks.set k task).countP (Task.holds b) + (old.holds b).toNat =
      s.holding b + (task.holds b).toNat := by
  obtain ⟨hlt, hold⟩ := List.getElem?_eq_some_iff.mp h
  have hset : (s.tasks.set k task).countP (Task.holds b) = s.tasks.countP (Task.holds b) -
      (if s.tasks[k].holds b then 1 else 0) + (if task.holds b then 1 else 0) :=
    List.countP_set hlt
  rw [hold] at hset
  rw [hset, State.holding]
  cases hb : old.holds b with
  | true =>
    -- The old task is one of those counted.
    have hpos : 0 < s.tasks.countP (Task.holds b) :=
      List.countP_pos_iff.mpr ⟨old, List.mem_of_getElem? h, hb⟩
    cases task.holds b <;> simp <;> omega
  | false => cases task.holds b <;> simp

/-! ### Mailboxes -/

/-- Only sends reserve room, and only their pushes give it up. -/
theorem Upkeep.reserved {box box' : Mailbox.State} {u : Upkeep} (h : u.apply box = some box') :
    box'.reserved = box.reserved := by
  have htake : ∀ {budget pick size r}, Mailbox.take box budget pick size = some r →
      r.1.reserved = box.reserved := by
    intro budget pick size r hr
    obtain ⟨plain, -, rfl⟩ := Option.map_eq_some_iff.mp hr
    rfl
  cases u with
  | expect child =>
    obtain rfl := Option.some.inj h
    rfl
  | notice e =>
    simp only [Upkeep.apply] at h
    split at h
    · cases h
    · next hplain =>
      obtain ⟨r, hpush, rfl⟩ := Option.map_eq_some_iff.mp h
      simp only [Mailbox.push, Mailbox.clear, if_neg hplain, Option.map_some] at hpush
      split at hpush
      · obtain rfl := Option.some.inj hpush
        rfl
      · obtain rfl := Option.some.inj hpush
        rfl
  | take budget pick size =>
    obtain ⟨r, hr, rfl⟩ := Option.map_eq_some_iff.mp h
    exact htake hr
  | idle shut budget size =>
    obtain ⟨r, hr, rfl⟩ := Option.map_eq_some_iff.mp h
    unfold Mailbox.idle at hr
    split at hr
    · obtain ⟨r', hr', rfl⟩ := Option.map_eq_some_iff.mp hr
      exact htake hr'
    · split at hr
      · obtain rfl := Option.some.inj hr
        rfl
      · obtain rfl := Option.some.inj hr
        rfl
  | close =>
    obtain rfl := Option.some.inj h
    rfl
  | stage agent =>
    obtain rfl := Option.some.inj h
    unfold Mailbox.stage
    split <;> rfl
  | saw agent =>
    obtain rfl := Option.some.inj h
    rfl
  | charge cost budget =>
    obtain rfl := Option.some.inj h
    unfold Mailbox.charge
    split <;> rfl
  | newTurn =>
    obtain rfl := Option.some.inj h
    rfl

/-- A plain message gives up one reservation, whether the mailbox is closed or
    not, and there is no panic while one is left. -/
theorem push_plain {box : Mailbox.State} {e : Envelope} (hplain : e.plain = true)
    (hreserved : 0 < box.reserved) :
    ∃ box', box'.reserved + 1 = box.reserved ∧
      Mailbox.push box e = some (box', if box.closed then .error e else .ok ()) := by
  have hclear : Mailbox.clear box e = some { box with reserved := box.reserved - 1 } := by
    rw [Mailbox.clear, if_pos hplain, checkedSub_of_le hreserved]
    rfl
  unfold Mailbox.push
  rw [hclear, Option.map_some]
  cases hclosed : box.closed with
  | true =>
    refine ⟨{ box with reserved := box.reserved - 1 }, Nat.sub_add_cancel hreserved, ?_⟩
    simp only [hclosed, if_true]
  | false =>
    refine ⟨{ box with
      reserved := box.reserved - 1
      plain := box.plain + e.plain.toNat
      queue := box.queue ++ [e] }, Nat.sub_add_cancel hreserved, ?_⟩
    simp only [hclosed, Bool.false_eq_true, if_false]

/-! ### Steps -/

/-- The sends and their reservations are left alone. -/
structure Quiet (s t : State) : Prop where
  sending : ∀ k, t.sending k = s.sending k
  holding : ∀ b, t.holding b = s.holding b
  reserved : ∀ b, (t.boxes b).reserved = (s.boxes b).reserved
  sent : ∀ i, (t.works i).sent = (s.works i).sent

/-- A send is accepted, with room reserved for its message. -/
structure Accepted (s t : State) (x : Sending) (i : Nat) : Prop where
  plain : x.message.envelope.plain = true
  phase : x.phase = .waiting
  previous : x.previous = (s.works i).sent
  tasks : t.tasks = s.tasks ++ [.send x]
  reserved : ∀ b, (t.boxes b).reserved =
    (s.boxes b).reserved + if x.recipient = b then 1 else 0
  sent : ∀ j, (t.works j).sent = if j = i then some s.tasks.length else (s.works j).sent

theorem Quiet.refl (s : State) : Quiet s s :=
  ⟨fun _ => rfl, fun _ => rfl, fun _ => rfl, fun _ => rfl⟩

/-- Only tasks, boxes and works matter. -/
theorem Quiet.of_eq {s t : State} (htasks : t.tasks = s.tasks) (hboxes : t.boxes = s.boxes)
    (hworks : t.works = s.works) : Quiet s t := by
  refine ⟨?_, ?_, ?_, ?_⟩
  · intro k
    rw [State.sending, State.sending, htasks]
  · intro b
    rw [State.holding, State.holding, htasks]
  · intro b
    rw [hboxes]
  · intro i
    rw [hworks]

/-- A request that is refused touches the tree only. -/
theorem Quiet.tree (s : State) (tree : Tree.State) : Quiet s { s with tree } :=
  .of_eq rfl rfl rfl

theorem Quiet.setBox {s : State} {b : Nat} {box : Mailbox.State}
    (h : box.reserved = (s.boxes b).reserved) : Quiet s (s.setBox b box) := by
  refine ⟨fun _ => rfl, fun _ => rfl, ?_, fun _ => rfl⟩
  intro b'
  simp only [State.setBox, Function.update_apply]
  split
  · next heq => rw [h, heq]
  · rfl

theorem Quiet.trans {s t u : State} (h : Quiet s t) (h' : Quiet t u) : Quiet s u :=
  ⟨fun k => (h'.sending k).trans (h.sending k), fun b => (h'.holding b).trans (h.holding b),
    fun b => (h'.reserved b).trans (h.reserved b), fun i => (h'.sent i).trans (h.sent i)⟩

theorem own_sent (s : State) (i : Nat) (task : Task) (j : Nat) :
    ((s.own i task).works j).sent = (s.works j).sent := by
  simp only [State.own, Function.update_apply]
  split
  · next h => rw [h]
  · rfl

/-- Other owned work is no send. -/
theorem Quiet.own (s : State) (i : Nat) (work : Owned) (ended : Option Bool) :
    Quiet s (s.own i (.other work ended)) := by
  refine ⟨?_, ?_, fun _ => rfl, own_sent s i _⟩
  · intro k
    simp only [State.sending, State.own]
    by_cases hk : k < s.tasks.length
    · rw [List.getElem?_append_left hk]
    · have hle := Nat.le_of_not_lt hk
      rw [List.getElem?_append_right hle, List.getElem?_eq_none hle]
      cases k - s.tasks.length <;> rfl
  · intro b
    simp only [State.holding, State.own, List.countP_append, List.countP_singleton, Task.holds,
      Bool.false_eq_true, if_false, Nat.add_zero]

variable {cfg : Config} {s t : State}

theorem spawnAgent_quiet {n : Node} {spec : ChildSpec} {owner : Owner}
    {result : Except RecursionError NodeId}
    (h : spawnAgent cfg s n spec owner = some (t, result)) : Quiet s t := by
  unfold spawnAgent at h
  split at h
  · obtain ⟨rfl, -⟩ := Prod.mk.inj (Option.some.inj h)
    exact .tree s _
  · obtain ⟨⟨after, result'⟩, -, heq⟩ := Option.map_eq_some_iff.mp h
    cases result' with
    | error e =>
      obtain ⟨rfl, -⟩ := Prod.mk.inj heq
      exact .tree s _
    | ok id =>
      obtain ⟨rfl, -⟩ := Prod.mk.inj heq
      have hadmitted : ∀ directory, Quiet s { s with tree := after, directory } :=
        fun _ => .of_eq rfl rfl rfl
      refine ((hadmitted _).trans (.setBox ?_)).trans (.own _ _ _ _)
      -- The parent may expect the child's notice from now on.
      split <;> rfl

theorem llm_quiet {n : Node} {call : LlmCall} {owner : Nat}
    {result : Except RecursionError NodeId} (h : llm cfg s n call owner = some (t, result)) :
    Quiet s t := by
  unfold llm at h
  split at h
  · obtain ⟨rfl, -⟩ := Prod.mk.inj (Option.some.inj h)
    exact .refl s
  · split at h
    · obtain ⟨rfl, -⟩ := Prod.mk.inj (Option.some.inj h)
      exact .refl s
    · split at h
      · obtain ⟨rfl, -⟩ := Prod.mk.inj (Option.some.inj h)
        exact .tree s _
      · obtain ⟨⟨after, result'⟩, -, heq⟩ := Option.map_eq_some_iff.mp h
        cases result' with
        | error e =>
          obtain ⟨rfl, -⟩ := Prod.mk.inj heq
          exact .tree s _
        | ok id =>
          obtain ⟨rfl, -⟩ := Prod.mk.inj heq
          exact Quiet.trans (.tree s _) (.own _ _ _ _)

/-- A send is refused, or accepted with the id of its message. -/
theorem send_cases {n : Node} {to_ : NodeId} {body : String} {sentAt : Int}
    {result : Except RecursionError Nat} (h : send cfg s n to_ body sentAt = (t, result)) :
    (Quiet s t ∧ ∃ e, result = .error e) ∨
      ∃ x, Accepted s t x n.cx.id ∧ result = .ok x.message.envelope.id := by
  have hrefused : ∀ {tree : Tree.State} {e : RecursionError},
      ({ s with tree }, Except.error e) = (t, result) → Quiet s t ∧ ∃ e, result = .error e := by
    intro tree e heq
    obtain ⟨rfl, rfl⟩ := Prod.mk.inj heq
    exact ⟨.tree s _, e, rfl⟩
  unfold send at h
  split at h
  · exact .inl (hrefused h)
  · split at h
    · exact .inl (hrefused h)
    · split at h
      · exact .inl (hrefused h)
      · next recipient spawn hkin =>
        split at h
        · exact .inl (hrefused h)
        · exact .inl (hrefused h)
        · next box hbox =>
          obtain ⟨rfl, rfl⟩ := Prod.mk.inj h
          have hreserved : box.reserved = (s.boxes recipient).reserved + 1 := by
            unfold Mailbox.reserve at hbox
            split at hbox
            · cases hbox
            · split at hbox
              · cases hbox
              · obtain rfl := Except.ok.inj hbox
                rfl
          refine .inr ⟨_, ⟨rfl, rfl, rfl, rfl, ?_, ?_⟩, rfl⟩
          · intro b
            simp only [State.own, State.setBox, Function.update_apply]
            by_cases hb : b = recipient
            · rw [if_pos hb, if_pos hb.symm, hreserved, hb]
            · rw [if_neg hb, if_neg (Ne.symm hb), Nat.add_zero]
          · intro j
            rw [own_sent]
            simp only [State.setBox, Function.update_apply]
            split <;> rfl

/-- Any step that is not one of the task of a send. -/
theorem step_cases {l : Label} (h : step cfg s l = some t)
    (hl : ∀ k written, l ≠ .advance k written) :
    Quiet s t ∨ ∃ x i, Accepted s t x i := by
  cases l with
  | spawnAgent i spec owner =>
    simp only [step] at h
    split at h
    · split at h
      · obtain ⟨⟨u, result⟩, hcall, rfl⟩ := Option.map_eq_some_iff.mp h
        exact .inl (spawnAgent_quiet hcall)
      · cases h
    · cases h
  | llm i call owner =>
    simp only [step] at h
    split at h
    · split at h
      · obtain ⟨⟨u, result⟩, hcall, rfl⟩ := Option.map_eq_some_iff.mp h
        exact .inl (llm_quiet hcall)
      · cases h
    · cases h
  | send i to_ body sentAt =>
    obtain ⟨n, -, rfl⟩ := Option.map_eq_some_iff.mp h
    have hcall := (Prod.eta (send cfg s n to_ body sentAt)).symm
    rcases send_cases hcall with ⟨hquiet, -⟩ | ⟨x, haccepted, -⟩
    · exact .inl hquiet
    · exact .inr ⟨x, _, haccepted⟩
  | advance k written => exact absurd rfl (hl k written)
  | own i =>
    obtain ⟨n, -, rfl⟩ := Option.map_eq_some_iff.mp h
    exact .inl (.own _ _ _ _)
  | ended k panicked =>
    simp only [step] at h
    split at h
    · next work hk =>
      obtain rfl := Option.some.inj h
      have hlt := (List.getElem?_eq_some_iff.mp hk).1
      refine .inl ⟨?_, ?_, fun _ => rfl, fun _ => rfl⟩
      · intro j
        simp only [State.sending, List.getElem?_set]
        by_cases hj : k = j
        · rw [if_pos hj, if_pos hlt, ← hj, hk]
        · rw [if_neg hj]
      · intro b
        exact holding_setTask hk _ b
    · cases h
  | join i =>
    obtain ⟨tree, -, rfl⟩ := Option.map_eq_some_iff.mp h
    refine .inl ⟨fun _ => rfl, fun _ => rfl, fun _ => rfl, ?_⟩
    intro j
    simp only [Function.update_apply]
    split
    · next hj => rw [hj]
    · rfl
  | joined k =>
    simp only [step] at h
    split at h
    · split at h
      · obtain rfl := Option.some.inj h
        exact .inl (.of_eq rfl rfl rfl)
      · cases h
    · cases h
  | tree l =>
    simp only [step] at h
    split at h
    · obtain ⟨tree, -, rfl⟩ := Option.map_eq_some_iff.mp h
      exact .inl (.tree s _)
    · cases h
  | mailbox b u =>
    obtain ⟨box, hbox, rfl⟩ := Option.map_eq_some_iff.mp h
    exact .inl (.setBox (Upkeep.reserved hbox))
  | nextMessage =>
    obtain rfl := Option.some.inj h
    exact .inl (.of_eq rfl rfl rfl)
  | emit event =>
    obtain rfl := Option.some.inj h
    exact .inl (.of_eq rfl rfl rfl)

end Kyora.Requests
