import Kyora.Framework.System
import Kyora.Ledger.Operations

/-! # One ledger and its callers

  The ledger of a session together with what its callers hold: the
  reservations that were handed out and not settled yet, and the history of
  the settlements made. A label is one call. A caller can only settle a
  reservation it holds, and settling consumes it.
-/

namespace Kyora.Ledger

/-! ### State -/

/-- A reservation with the node it was made for. -/
structure Issued where
  node : NodeId
  reservation : Reservation
  deriving DecidableEq, Repr

/-- The entry of the attempt map that stands for an issued reservation. -/
def Issued.attempt (x : Issued) : Attempt :=
  ⟨x.reservation.id, x.node, x.reservation.tokens⟩

/-- A settled reservation with its charge and the usage recorded for it. -/
structure Settled where
  issued : Issued
  charged : Nat
  usage : Usage
  deriving DecidableEq, Repr

/-- Charge above the attempt's estimate. -/
def Settled.excess (x : Settled) : Nat := x.charged - x.issued.reservation.tokens

structure Session where
  ledger : State
  /-- Reservations handed out and not settled yet. -/
  outstanding : List Issued
  /-- Settlements so far, oldest first. -/
  settled : List Settled

/-- One call on the ledger. -/
inductive Call where
  | admitChild (parent : NodeId) (agent : Bool) (limit : Option Nat)
  | reserve (node : NodeId) (promptEstimate requested : Nat)
  | settle (x : Issued) (charge : Charge)
  | closeAdmission (node : NodeId)
  | shutdown (node : NodeId)

/-- The caller keeps the reservation a successful call returned. -/
def Session.keep (s : Session) (node : NodeId) :
    State × Except String Reservation → Session
  | (ledger, .ok r) => { s with ledger, outstanding := s.outstanding ++ [⟨node, r⟩] }
  | (ledger, .error _) => { s with ledger }

/-- The state after a call. `none` where the call panics, or where it settles
    a reservation the caller does not hold. -/
def step (limits : Limits) (s : Session) : Call → Option Session
  | .admitChild parent agent limit =>
    (admitChild limits s.ledger parent agent limit).map fun r => { s with ledger := r.1 }
  | .reserve node promptEstimate requested =>
    (reserve s.ledger node promptEstimate requested).map (s.keep node)
  | .settle x charge =>
    if x ∈ s.outstanding then
      (settle s.ledger x.reservation charge).map fun r =>
        { ledger := r.1
          outstanding := s.outstanding.erase x
          settled := s.settled ++
            [⟨x, r.2.charged, charge.recorded x.reservation.tokens⟩] }
    else none
  | .closeAdmission node =>
    (closeAdmission s.ledger node).map fun ledger => { s with ledger }
  | .shutdown node => (shutdown s.ledger node).map fun ledger => { s with ledger }

/-- All sequences of calls on the ledger of one session. -/
def sessions (limits : Limits) : LTS.System Session Call where
  init := { ledger := initial limits, outstanding := [], settled := [] }
  step := step limits

/-! ### The scope tree -/

/-- Every parent is an earlier scope, and only the root has none. -/
structure Tree (s : State) : Prop where
  ordered : Forest.Ordered s.links
  root : ∀ i, s.links i = some none → i = 0

theorem links_isSome {s : State} {i : Nat} :
    (s.links i).isSome ↔ i < s.scopes.length := by
  simp [State.links]

theorem links_eq_some {s : State} {i : NodeId} {n : Scope} (h : s.scopes[i]? = some n) :
    s.links i = some n.parent := by
  simp [State.links, h]

/-- In a scope tree the walk of `path` always ends. -/
theorem Tree.path_isSome {s : State} (h : Tree s) {node : NodeId}
    (hnode : (s.links node).isSome) : ∃ ids, path s node = some ids :=
  Option.isSome_iff_exists.mp
    (Forest.climb_isSome h.ordered.ranked hnode (links_isSome.mp hnode))

theorem Tree.path_nodup {s : State} (h : Tree s) {node : NodeId} {ids : List NodeId}
    (hids : path s node = some ids) : ids.Nodup :=
  (Forest.climb_sorted h.ordered hids).imp fun hlt => Nat.ne_of_gt hlt

theorem mem_path {s : State} {node : NodeId} {ids : List NodeId}
    (hids : path s node = some ids) (i : NodeId) : i ∈ ids ↔ Forest.Below s.links i node :=
  Forest.mem_climb hids i

/-- Links of a state with one more scope. -/
theorem links_append {s t : State} {n : Scope} (h : t.scopes = s.scopes ++ [n])
    {i : NodeId} (hi : (s.links i).isSome) : t.links i = s.links i := by
  have hlt := links_isSome.mp hi
  simp [State.links, h, List.getElem?_append_left hlt]

theorem Tree.snoc {s t : State} {n : Scope} {parent : NodeId} (h : Tree s)
    (hscopes : t.scopes = s.scopes ++ [n]) (hn : n.parent = some parent)
    (hparent : (s.links parent).isSome) : Tree t := by
  have hlinks : ∀ i, (t.links i = s.links i ∧ (s.links i).isSome) ∨
      (i = s.scopes.length ∧ t.links i = some (some parent)) ∨ t.links i = none := by
    intro i
    rcases Nat.lt_trichotomy i s.scopes.length with hlt | heq | hgt
    · have hi := links_isSome.mpr hlt
      exact Or.inl ⟨links_append hscopes hi, hi⟩
    · subst heq
      exact Or.inr (Or.inl ⟨rfl, by simp [State.links, hscopes, hn]⟩)
    · exact Or.inr (Or.inr (by simp [State.links, hscopes]; omega))
  constructor
  · intro i p hip
    rcases hlinks i with ⟨heq, _⟩ | ⟨heq, hlink⟩ | hnone
    · obtain ⟨hlt, hp⟩ := h.ordered i p (heq ▸ hip)
      exact ⟨hlt, by rw [links_append hscopes hp]; exact hp⟩
    · obtain rfl : p = parent := by simpa [hlink, eq_comm] using hip
      have hlt := links_isSome.mp hparent
      exact ⟨by omega, by rw [links_append hscopes hparent]; exact hparent⟩
    · simp [hnone] at hip
  · intro i hi
    rcases hlinks i with ⟨heq, _⟩ | ⟨_, hlink⟩ | hnone
    · exact h.root i (heq ▸ hi)
    · simp [hlink] at hi
    · simp [hnone] at hi

theorem Tree.of_links {s t : State} (h : Tree s) (hlinks : t.links = s.links) : Tree t :=
  ⟨hlinks ▸ h.ordered, hlinks ▸ h.root⟩

theorem tree_initial (limits : Limits) : Tree (initial limits) := by
  have hlink : ∀ i p, (initial limits).links i = some p → i = 0 ∧ p = none := by
    intro i p hi
    match i with
    | 0 => simp [State.links, initial, freshScope] at hi; exact ⟨rfl, hi.symm⟩
    | i + 1 => simp [State.links, initial] at hi
  constructor
  · intro i p hi
    have := (hlink i (some p) hi).2
    cases this
  · intro i hi
    exact (hlink i none hi).1

/-- Equal accounts give equal links. -/
theorem links_of_account {s t : State}
    (h : ∀ i : NodeId, (t.scopes[i]?).map Scope.account = (s.scopes[i]?).map Scope.account) :
    t.links = s.links := by
  funext i
  have hi := congrArg (Option.map Prod.fst) (h i)
  simpa [State.links, Option.map_map, Scope.account, Function.comp_def] using hi

/-! ### What one call does to a session -/

/-- The session after a call: five ways to change the scopes, of which the
    last two (a refused call, or a closing one) leave the accounts alone. -/
theorem step_cases {limits : Limits} {s t : Session} {l : Call}
    (h : step limits s l = some t) :
    (∃ parent agent limit id, l = .admitChild parent agent limit ∧
      admitChild limits s.ledger parent agent limit = some (t.ledger, .ok id) ∧
      t.outstanding = s.outstanding ∧ t.settled = s.settled) ∨
    (∃ node e m r, l = .reserve node e m ∧
      reserve s.ledger node e m = some (t.ledger, .ok r) ∧
      t.outstanding = s.outstanding ++ [⟨node, r⟩] ∧ t.settled = s.settled) ∨
    (∃ x charge result, l = .settle x charge ∧ x ∈ s.outstanding ∧
      settle s.ledger x.reservation charge = some (t.ledger, result) ∧
      t.outstanding = s.outstanding.erase x ∧
      t.settled = s.settled ++
        [⟨x, result.charged, charge.recorded x.reservation.tokens⟩]) ∨
    ((∀ i : NodeId, (t.ledger.scopes[i]?).map Scope.account =
        (s.ledger.scopes[i]?).map Scope.account) ∧
      t.ledger.attempts = s.ledger.attempts ∧
      t.ledger.nextAttempt = s.ledger.nextAttempt ∧
      t.outstanding = s.outstanding ∧ t.settled = s.settled) := by
  cases l with
  | admitChild parent agent limit =>
    obtain ⟨⟨ledger, result⟩, hcall, rfl⟩ := Option.map_eq_some_iff.mp h
    cases result with
    | ok id => exact Or.inl ⟨parent, agent, limit, id, rfl, hcall, rfl, rfl⟩
    | error e =>
      obtain rfl := admitChild_error hcall
      exact Or.inr (Or.inr (Or.inr ⟨fun _ => rfl, rfl, rfl, rfl, rfl⟩))
  | reserve node e m =>
    obtain ⟨⟨ledger, result⟩, hcall, rfl⟩ := Option.map_eq_some_iff.mp h
    cases result with
    | ok r => exact Or.inr (Or.inl ⟨node, e, m, r, rfl, hcall, rfl, rfl⟩)
    | error e =>
      obtain rfl := reserve_error hcall
      exact Or.inr (Or.inr (Or.inr ⟨fun _ => rfl, rfl, rfl, rfl, rfl⟩))
  | settle x charge =>
    simp only [step] at h
    split at h
    · next hx =>
      obtain ⟨⟨ledger, result⟩, hcall, rfl⟩ := Option.map_eq_some_iff.mp h
      exact Or.inr (Or.inr (Or.inl ⟨x, charge, result, rfl, hx, hcall, rfl, rfl⟩))
    · cases h
  | closeAdmission node =>
    obtain ⟨ledger, hcall, rfl⟩ := Option.map_eq_some_iff.mp h
    obtain ⟨haccount, hattempts, hnext⟩ := closeAdmission_ok hcall
    exact Or.inr (Or.inr (Or.inr ⟨haccount, hattempts, hnext, rfl, rfl⟩))
  | shutdown node =>
    obtain ⟨ledger, hcall, rfl⟩ := Option.map_eq_some_iff.mp h
    obtain ⟨haccount, hattempts, hnext⟩ := shutdown_ok hcall
    exact Or.inr (Or.inr (Or.inr ⟨haccount, hattempts, hnext, rfl, rfl⟩))

/-! ### Reservations and attempts -/

/-- The callers' reservations and the ledger's attempt map agree, ids are
    fresh, and every attempt ever made belongs to a scope. -/
structure Matched (s : Session) : Prop where
  tree : Tree s.ledger
  attempts : s.ledger.attempts = s.outstanding.map Issued.attempt
  fresh : ∀ x ∈ s.outstanding, x.reservation.id < s.ledger.nextAttempt
  nodup : (s.outstanding.map fun x => x.reservation.id).Nodup
  placed : ∀ x ∈ s.outstanding, (s.ledger.links x.node).isSome
  settledPlaced : ∀ x ∈ s.settled, (s.ledger.links x.issued.node).isSome

/-- Looking an outstanding reservation up finds its own attempt. -/
theorem Matched.find?_attempt {s : Session} (h : Matched s) {x : Issued}
    (hx : x ∈ s.outstanding) :
    s.ledger.attempts.find? (·.id == x.reservation.id) = some x.attempt := by
  have key : ∀ {xs : List Issued}, (xs.map fun x => x.reservation.id).Nodup → x ∈ xs →
      (xs.map Issued.attempt).find? (·.id == x.reservation.id) = some x.attempt := by
    intro xs hnodup hmem
    induction xs with
    | nil => cases hmem
    | cons y ys ih =>
      obtain ⟨hnotin, hnodup'⟩ := List.nodup_cons.mp hnodup
      rcases List.mem_cons.mp hmem with rfl | hmem
      · simp [Issued.attempt]
      · have hne : y.reservation.id ≠ x.reservation.id := fun heq =>
          hnotin (List.mem_map.mpr ⟨x, hmem, heq.symm⟩)
        rw [List.map_cons, List.find?_cons_of_neg (by simpa [Issued.attempt] using hne)]
        exact ih hnodup' hmem
  rw [h.attempts]
  exact key h.nodup hx

/-- Removing an outstanding reservation's attempt removes nothing else. -/
theorem Matched.eraseP_attempt {s : Session} (h : Matched s) {x : Issued}
    (hx : x ∈ s.outstanding) :
    s.ledger.attempts.eraseP (·.id == x.reservation.id) =
      (s.outstanding.erase x).map Issued.attempt := by
  have key : ∀ {xs : List Issued}, (xs.map fun x => x.reservation.id).Nodup → x ∈ xs →
      (xs.map Issued.attempt).eraseP (·.id == x.reservation.id) =
        (xs.erase x).map Issued.attempt := by
    intro xs hnodup hmem
    induction xs with
    | nil => cases hmem
    | cons y ys ih =>
      obtain ⟨hnotin, hnodup'⟩ := List.nodup_cons.mp hnodup
      rcases List.mem_cons.mp hmem with rfl | hmem
      · simp [Issued.attempt]
      · have hne : y.reservation.id ≠ x.reservation.id := fun heq =>
          hnotin (List.mem_map.mpr ⟨x, hmem, heq.symm⟩)
        have hyx : y ≠ x := fun heq => hne (by rw [heq])
        rw [List.map_cons, List.eraseP_cons_of_neg (by simpa [Issued.attempt] using hne),
          ih hnodup' hmem, List.erase_cons_tail (by simpa using hyx), List.map_cons]
  rw [h.attempts]
  exact key h.nodup hx

theorem matched_init (limits : Limits) : Matched (sessions limits).init :=
  ⟨tree_initial limits, rfl, by simp [sessions], by simp [sessions], by simp [sessions],
    by simp [sessions]⟩

/-- Links after a settlement: the loop and the write of `own` keep parents. -/
theorem links_settle {s t : State} {a : Attempt} {ids : List NodeId} {scopes : List Scope}
    {n n' : Scope} {charged : Nat} {usage : Usage}
    (hloop : updatePath (settleScope a.tokens charged usage) ids s.scopes = some scopes)
    (hn : scopes[a.node]? = some n) (hparent : n'.parent = n.parent)
    (ht : t.scopes = scopes.set a.node n') : t.links = s.links := by
  have hscopes := links_updatePath (s := s) (fun n m hm => by
    rw [(settleScope_eq_some.mp hm).2]) hloop
  rw [← hscopes, ← links_set (s := { s with scopes := scopes }) hn hparent]
  funext i
  simp [State.links, ht]

theorem matched_step {limits : Limits} {s t : Session} {l : Call} (h : Matched s)
    (hstep : step limits s l = some t) : Matched t := by
  rcases step_cases hstep with
    ⟨parent, agent, limit, id, -, hcall, hout, hset⟩ | ⟨node, e, m, r, -, hcall, hout, hset⟩ |
    ⟨x, charge, result, -, hx, hcall, hout, hset⟩ | ⟨haccount, hatt, hnext, hout, hset⟩
  · obtain ⟨p, ids, hp, -, -, -, -, -, -, hscopes, hatt, hnext, -⟩ := admitChild_ok hcall
    have hparent : (s.ledger.links parent).isSome := by simp [links_eq_some hp]
    have hkeep : ∀ i, (s.ledger.links i).isSome → (t.ledger.links i).isSome := fun i hi => by
      rw [links_append hscopes hi]; exact hi
    exact ⟨h.tree.snoc hscopes rfl hparent, by rw [hatt, hout, h.attempts],
      by rw [hout, hnext]; exact h.fresh, by rw [hout]; exact h.nodup,
      by rw [hout]; exact fun x hx => hkeep _ (h.placed x hx),
      by rw [hset]; exact fun x hx => hkeep _ (h.settledPlaced x hx)⟩
  · obtain ⟨n, ids, hn, -, -, -, -, -, -, -, -, hid, hloop, hnext, hatt, -⟩ := reserve_ok hcall
    have hlinks : t.ledger.links = s.ledger.links :=
      links_updatePath (s := s.ledger) (fun n m hm => by
        obtain rfl := Option.some.inj hm; rfl) hloop
    refine ⟨h.tree.of_links hlinks, ?_, ?_, ?_, ?_, by rw [hset, hlinks]; exact h.settledPlaced⟩
    · rw [hatt, hout, h.attempts, List.map_append]; rfl
    · rw [hout, hnext]
      intro y hy
      rcases List.mem_append.mp hy with hy | hy
      · exact Nat.lt_succ_of_lt (h.fresh y hy)
      · obtain rfl := List.mem_singleton.mp hy
        simp [hid]
    · rw [hout, List.map_append, List.nodup_append]
      refine ⟨h.nodup, by simp, fun i hi j hj => ?_⟩
      obtain ⟨y, hy, rfl⟩ := List.mem_map.mp hi
      obtain rfl : j = s.ledger.nextAttempt := by simpa [hid] using hj
      exact Nat.ne_of_lt (h.fresh y hy)
    · rw [hout, hlinks]
      intro y hy
      rcases List.mem_append.mp hy with hy | hy
      · exact h.placed y hy
      · obtain rfl := List.mem_singleton.mp hy
        simp [links_eq_some hn]
  · obtain ⟨a, ids, scopes, n, ha, -, hloop, hn, hscopes, hatt, hnext, -⟩ := settle_ok hcall
    have hlinks : t.ledger.links = s.ledger.links := links_settle hloop hn (by rfl) hscopes
    have hsub : ∀ y ∈ s.outstanding.erase x, y ∈ s.outstanding := fun y => List.mem_of_mem_erase
    refine ⟨h.tree.of_links hlinks, ?_, ?_, ?_, ?_, ?_⟩
    · rw [hatt, hout, h.eraseP_attempt hx]
    · rw [hout, hnext]; exact fun y hy => h.fresh y (hsub y hy)
    · rw [hout]
      exact h.nodup.sublist (List.erase_sublist.map _)
    · rw [hout, hlinks]; exact fun y hy => h.placed y (hsub y hy)
    · rw [hset, hlinks]
      intro y hy
      rcases List.mem_append.mp hy with hy | hy
      · exact h.settledPlaced y hy
      · obtain rfl := List.mem_singleton.mp hy
        exact h.placed x hx
  · have hlinks := links_of_account haccount
    exact ⟨h.tree.of_links hlinks, by rw [hatt, hout, h.attempts],
      by rw [hout, hnext]; exact h.fresh, by rw [hout]; exact h.nodup,
      by rw [hout, hlinks]; exact h.placed, by rw [hset, hlinks]; exact h.settledPlaced⟩

theorem matched_of_reachable {limits : Limits} {s : Session}
    (h : (sessions limits).Reachable s) : Matched s :=
  LTS.System.invariant (matched_init limits) (fun _ _ _ hs _ hstep => matched_step hs hstep) s h

end Kyora.Ledger
