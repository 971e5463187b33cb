import Kyora.Tree.Wiring

/-! # Cancellation

  A node stops for its own token and for every external owner on its path.
  Tokens descend along the tree and owners are handed down, so a cancelled
  token or owner stops everything below it at the next check, whether or not
  anything has forwarded the cancellation.
-/

namespace Kyora.Tree

/-! ### What steps keep -/

/-- Nodes keep their links. -/
theorem links_step {s t : State} (h : Grown s t) {i : NodeId} (hi : (s.links i).isSome) :
    t.links i = s.links i := by
  unfold State.links at hi ⊢
  rw [Option.isSome_map] at hi
  obtain ⟨n, hn⟩ := Option.isSome_iff_exists.mp hi
  cases h with
  | renewed hlength hnodes hlevels =>
    obtain ⟨n', hn', hrenewed⟩ := hnodes i n hn
    rw [hn, hn', Option.map_some, Option.map_some, hrenewed.cx]
  | admitted p m c scope hm hc hnodes hscope hlevels =>
    rw [hnodes, List.getElem?_append_left (List.getElem?_eq_some_iff.mp hn).1]

/-- Parents come before their children. -/
theorem links_ordered {cfg : Config} {s : State} (h : (system cfg).Reachable s) :
    Forest.Ordered s.links := by
  rw [(wired_of_reachable h).links]
  exact (Ledger.matched_of_reachable (session_reachable h)).tree.ordered

/-- A node keeps its context and its owner. -/
theorem node_step {s t : State} (h : Grown s t) {i : NodeId} {n : Node}
    (hn : s.nodes[i]? = some n) : ∃ n', t.nodes[i]? = some n' ∧ Renewed n n' := by
  cases h with
  | renewed hlength hnodes hlevels => exact hnodes i n hn
  | admitted p m c scope hm hc hnodes hscope hlevels =>
    refine ⟨n, ?_, .refl n⟩
    rw [hnodes, List.getElem?_append_left (List.getElem?_eq_some_iff.mp hn).1]
    exact hn

/-- Tickets are numbered in the order of the checks. -/
def Numbered (s : State) : Prop :=
  ∀ x, x ∈ s.tickets ∨ x ∈ s.performed → x.id < s.nextTicket

theorem numbered_of_reachable {cfg : Config} {s : State} (h : (system cfg).Reachable s) :
    Numbered s := by
  refine LTS.System.invariant_with (J := Wired) (P := Numbered)
    (fun _ hs => wired_of_reachable hs) ?_ ?_ s h
  · intro x hx
    rcases hx with hx | hx
    · cases hx
    · cases hx
  · intro u l v hu _ hnumbered _ hstep x hx
    have hmoved := hu.moved hstep
    rcases hmoved.tickets x hx with hold | hnew
    · exact Nat.lt_of_lt_of_le (hnumbered x hold) hmoved.next
    · rw [hnew.next, hnew.id]
      exact Nat.lt_succ_self _

/-! ### Stopped subtrees -/

/-- The node's token, or the owner it was admitted with, is cancelled. -/
def Stopped (s : State) (n : Node) : Prop :=
  s.tokens.isCancelled n.cx.cancel = true ∨ ∃ k ∈ n.owner, s.tokens.isCancelled k = true

/-- What is stopped stays stopped. -/
theorem Stopped.step {s t : State} {i : NodeId} {n n' : Node} (h : Stopped s n)
    (hok : NodeOk s i n) (htokens : s.tokens.Grows t.tokens) (hn : Renewed n n') :
    Stopped t n' := by
  rcases h with hcancel | ⟨k, hk, hcancel⟩
  · left
    rw [hn.cx]
    exact htokens.isCancelled hok.cancel hcancel
  · right
    refine ⟨k, hn.owner ▸ hk, ?_⟩
    exact htokens.isCancelled (hok.owners k (hok.owner k hk)) hcancel

/-- No check of a node below a stopped one passes. -/
theorem Wired.not_granted {s t : State} (h : Wired s) {a : NodeId} {m : Node} {x : Ticket}
    (hm : s.nodes[a]? = some m) (hstopped : Stopped s m) (hx : Granted s t x) :
    ¬ Forest.Below s.links a x.node := by
  intro hbelow
  obtain ⟨n, hn, hcancel, howners⟩ := hx.running
  obtain ⟨htoken, hsub, -⟩ := h.above hbelow hm hn
  rcases hstopped with hstopped | ⟨k, hk, hstopped⟩
  · -- Its token descends from the cancelled one.
    rw [Tokens.Tree.isCancelled_of_below (h.node _ n hn).cancel htoken hstopped] at hcancel
    cases hcancel
  · -- It was handed the cancelled owner.
    rw [howners k (hsub ((h.node a m hm).owner k hk))] at hstopped
    cases hstopped

/-- Since a check number, nothing below a node passed a check. -/
structure Halted (cfg : Config) (s : State) (a : NodeId) (since : Nat) : Prop where
  reachable : (system cfg).Reachable s
  stopped : ∃ m, s.nodes[a]? = some m ∧ Stopped s m
  next : since ≤ s.nextTicket
  tickets : ∀ x, x ∈ s.tickets ∨ x ∈ s.performed → since ≤ x.id →
    (s.links x.node).isSome ∧ ¬ Forest.Below s.links a x.node

theorem halted_step {cfg : Config} {s t : State} {l : Label} {a : NodeId} {since : Nat}
    (h : Halted cfg s a since) (hstep : step cfg s l = some t) : Halted cfg t a since := by
  have hwired := wired_of_reachable h.reachable
  have hmoved := hwired.moved hstep
  have hgrown := grown_of_moved hmoved.nodes
  obtain ⟨m, hm, hstopped⟩ := h.stopped
  obtain ⟨m', hm', hrenewed⟩ := node_step hgrown hm
  -- Where a known node hangs does not change.
  have hbelow : ∀ i : NodeId, (s.links i).isSome →
      (Forest.Below t.links a i ↔ Forest.Below s.links a i) := by
    intro i hi
    exact Forest.below_extend (links_ordered h.reachable) (fun j hj => links_step hgrown hj) hi
  refine ⟨h.reachable.next hstep, ?_, Nat.le_trans h.next hmoved.next, ?_⟩
  · exact ⟨m', hm', hstopped.step (hwired.node a m hm) hmoved.tokens hrenewed⟩
  · intro x hx hsince
    have hs : (s.links x.node).isSome ∧ ¬ Forest.Below s.links a x.node := by
      rcases hmoved.tickets x hx with hold | hnew
      · exact h.tickets x hold hsince
      · refine ⟨?_, hwired.not_granted hm hstopped hnew⟩
        obtain ⟨n, hn, -⟩ := hnew.running
        unfold State.links
        rw [hn]
        rfl
    refine ⟨?_, ?_⟩
    · rw [links_step hgrown hs.1]
      exact hs.1
    · rw [hbelow x.node hs.1]
      exact hs.2

/-! ### The law -/

/-- What cancelling reaches, from one state of the tree on. -/
structure Cancellation (cfg : Config) (s : State) : Prop where
  /-- A node's token descends from the token of every node above it. -/
  token : ∀ {a i : NodeId} {m n : Node}, Forest.Below s.links a i → s.nodes[a]? = some m →
    s.nodes[i]? = some n → Forest.Below s.tokens.links m.cx.cancel n.cx.cancel
  /-- A node knows the external owner of every node on its path, itself
      included. -/
  owners : ∀ {a i : NodeId} {m n : Node}, Forest.Below s.links a i → s.nodes[a]? = some m →
    s.nodes[i]? = some n → ∀ k ∈ m.owner, k ∈ n.cx.owners
  /-- Once a node is stopped, nothing in its subtree passes another check, and
      all that is still done there was checked before. -/
  stops : ∀ {a : NodeId} {m : Node}, s.nodes[a]? = some m → Stopped s m →
    ∀ {ls : List Label} {t : State}, (system cfg).run s ls = some t →
      ∀ x, x ∈ t.tickets ∨ x ∈ t.performed → Forest.Below t.links a x.node →
        x.id < s.nextTicket

/-- Cancelling a node stops its whole subtree, whatever the watchers do. -/
theorem cancellation_reaches_subtree (cfg : Config) {s : State} (h : (system cfg).Reachable s) :
    Cancellation cfg s := by
  have hwired := wired_of_reachable h
  refine ⟨?_, ?_, ?_⟩
  · intro a i m n hbelow hm hn
    exact (hwired.above hbelow hm hn).1
  · intro a i m n hbelow hm hn k hk
    exact (hwired.above hbelow hm hn).2.1 ((hwired.node a m hm).owner k hk)
  · intro a m hm hstopped ls t hrun x hx hbelow
    have hstart : Halted cfg s a s.nextTicket := by
      refine ⟨h, ⟨m, hm, hstopped⟩, Nat.le_refl _, ?_⟩
      intro y hy hsince
      exact absurd (numbered_of_reachable h y hy) (Nat.not_lt.mpr hsince)
    have hend := (system cfg).run_invariant
      (fun _ _ _ hu hstep => halted_step hu hstep) hstart hrun
    by_cases hsince : s.nextTicket ≤ x.id
    · exact absurd hbelow (hend.tickets x hx hsince).2
    · exact Nat.lt_of_not_le hsince

/-! ### A cell cancelled while its agent is checked -/

/-- A child of a cell, with the default tools. -/
def cellSpec : ChildSpec where
  task := "t"
  name := none
  model := none
  tools := none
  maxTurns := none
  budget := none
  timeout := none
  init := none
  preamble := none
  originCell := some 1
  output := none

/-- A cell's agent passes a check, and then its cell is cancelled. -/
def cellLabels : List Label :=
  [.token none, .freeze 0 (.ok .empty), .check 0 (.spawnAgent cellSpec (.cell 2)), .act 0,
    .check 1 (.reserve 10 5000), .cancel 2]

/-- It still reserves, and passes no further check. -/
def lateLabels : List Label := [.act 1, .check 1 (.dispatch 0)]

theorem cancellation_reaches_subtree_cell : ∃ s t m, (system demo).Reachable s ∧
    s.nodes[1]? = some m ∧ Stopped s m ∧ (system demo).run s lateLabels = some t ∧
    t.performed.map Ticket.id = [0, 1] ∧
    ∀ x, x ∈ t.tickets ∨ x ∈ t.performed → Forest.Below t.links 1 x.node → x.id < 2 := by
  have hrun : (((system demo).run (system demo).init cellLabels).bind fun s =>
      ((system demo).run s lateLabels).map fun t =>
        (((s.nodes[1]?).map Node.owner, s.tokens.isCancelled 2, s.nextTicket),
          t.performed.map Ticket.id)) =
      some ((some (some 2), true, 2), [0, 1]) := by decide +kernel
  obtain ⟨s, hs, hrun⟩ := Option.bind_eq_some_iff.mp hrun
  obtain ⟨t, ht, heq⟩ := Option.map_eq_some_iff.mp hrun
  simp only [Prod.mk.injEq] at heq
  obtain ⟨⟨howner, hcancelled, hnext⟩, hperformed⟩ := heq
  obtain ⟨m, hm, howner⟩ := Option.map_eq_some_iff.mp howner
  have hreach := LTS.System.reachable_of_run hs
  have hstopped : Stopped s m := Or.inr ⟨2, Option.mem_def.mpr howner, hcancelled⟩
  refine ⟨s, t, m, hreach, hm, hstopped, ht, hperformed, ?_⟩
  intro x hx hbelow
  rw [← hnext]
  exact (cancellation_reaches_subtree demo hreach).stops hm hstopped ht x hx hbelow

end Kyora.Tree
