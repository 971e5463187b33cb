import Kyora.Ledger.Conservation

/-! # Budget safety and bounded overshoot

  An open scope is within its limit. A settlement above its estimate may push
  scopes of its path over their limits; each of those closes, takes no further
  reservation, and can only grow by the excess of attempts that were already
  outstanding.
-/

namespace Kyora.Ledger

/-! ### Headroom -/

/-- Total excess of the settled attempts in the subtree of `i`. -/
noncomputable def Session.excessBelow (s : Session) (i : NodeId) : Nat :=
  Forest.total s.ledger.links (fun x : Settled => x.issued.node) Settled.excess s.settled i

theorem remaining_closed {b : BudgetSnapshot} (h : b.closed = true) : b.remaining = 0 := by
  simp [BudgetSnapshot.remaining, h]

theorem remaining_open {b : BudgetSnapshot} (h : b.closed = false) :
    b.remaining = b.limit - (b.used + b.reserved) := by
  simp [BudgetSnapshot.remaining, h]

theorem remaining_mem_headrooms {s : State} {ids : List NodeId} {i : NodeId} {n : Scope}
    (hi : i ∈ ids) (hn : s.scopes[i]? = some n) : n.budget.remaining ∈ headrooms s ids :=
  List.mem_filterMap.mpr ⟨i, hi, by simp [hn]⟩

/-- A successful reservation leaves every scope of its path open and within
    its limit. -/
theorem reserve_fits {s t : State} {node : NodeId} {e m : Nat} {r : Reservation}
    {ids : List NodeId} (h : reserve s node e m = some (t, .ok r))
    (hids : path s node = some ids) {i : NodeId} {n : Scope} (hi : i ∈ ids)
    (hn : s.scopes[i]? = some n) :
    n.budget.closed = false ∧
      n.budget.used + n.budget.reserved + r.tokens ≤ n.budget.limit := by
  obtain ⟨_, ids', -, -, -, hids', hpos, hroom, htokens, -, hmin, -⟩ := reserve_ok h
  obtain rfl : ids = ids' := Option.some.inj (hids.symm.trans hids')
  have hle := hroom _ (remaining_mem_headrooms hi hn)
  -- At least one output token is reserved, so the headroom is positive.
  have hone : 0 < r.tokens := by
    have : 0 < min minOutputTokens m := Nat.lt_min.mpr ⟨by decide, hpos⟩
    omega
  match hclosed : n.budget.closed with
  | true =>
    rw [remaining_closed hclosed] at hle
    omega
  | false =>
    rw [remaining_open hclosed] at hle
    exact ⟨rfl, by omega⟩

/-- No reservation succeeds below a closed scope. -/
theorem reserve_closed {s : State} {i node : NodeId} {n : Scope}
    (hn : s.scopes[i]? = some n) (hclosed : n.budget.closed = true)
    (hb : Forest.Below s.links i node) (e m : Nat) (t : State) (r : Reservation) :
    reserve s node e m ≠ some (t, .ok r) := by
  intro h
  obtain ⟨_, ids, -, -, -, hids, -⟩ := reserve_ok h
  have hopen := (reserve_fits h hids ((mem_path hids i).mpr hb) hn).1
  rw [hclosed] at hopen
  cases hopen

/-- No admission succeeds below a closed scope. -/
theorem admitChild_closed {limits : Limits} {s : State} {i parent : NodeId} {n : Scope}
    (hn : s.scopes[i]? = some n) (hclosed : n.budget.closed = true)
    (hb : Forest.Below s.links i parent) (agent : Bool) (limit : Option Nat) (t : State)
    (id : NodeId) : admitChild limits s parent agent limit ≠ some (t, .ok id) := by
  intro h
  obtain ⟨_, ids, -, -, -, -, hids, hroom, -⟩ := admitChild_ok h
  have hmem := remaining_mem_headrooms ((mem_path hids i).mpr hb) hn
  exact hroom _ hmem (remaining_closed hclosed)

/-! ### One call, one scope -/

/-- What a call does to the budget of an existing scope: nothing, a fitting
    reservation, or a settlement of a held attempt in its subtree. -/
inductive BudgetStep (s t : Session) (i : NodeId) (b b' : BudgetSnapshot) : Prop where
  | keep (heq : b' = b) (hset : Forest.total s.ledger.links (fun x : Settled => x.issued.node)
      Settled.excess t.settled i = s.excessBelow i)
  | reserve (tokens : Nat) (hopen : b.closed = false)
      (hfit : b.used + b.reserved + tokens ≤ b.limit)
      (heq : b' = { b with reserved := b.reserved + tokens }) (hset : t.settled = s.settled)
  | settle (x : Issued) (charged : Nat) (usage : Usage) (hx : x ∈ s.outstanding)
      (hb : Forest.Below s.ledger.links i x.node)
      (hle : x.reservation.tokens ≤ b.reserved)
      (heq : b' = { b with
        used := b.used + charged
        reserved := b.reserved - x.reservation.tokens
        closed := b.closed || decide
          (b.used + charged + (b.reserved - x.reservation.tokens) > b.limit) })
      (hset : t.settled = s.settled ++ [⟨x, charged, usage⟩])

/-- A call keeps existing scopes with their parents and changes their budgets
    as `BudgetStep` says. -/
theorem step_scope {limits : Limits} {s t : Session} {l : Call} (hm : Matched s)
    (hstep : step limits s l = some t) {i : NodeId} {n : Scope}
    (hn : s.ledger.scopes[i]? = some n) :
    ∃ n', t.ledger.scopes[i]? = some n' ∧ n'.parent = n.parent ∧
      BudgetStep s t i n.budget n'.budget := by
  classical
  rcases step_cases hstep with
    ⟨parent, agent, limit, id, -, hcall, -, hset⟩ | ⟨node, e, m, r, -, hcall, -, hset⟩ |
    ⟨x, charge, result, -, hx, hcall, -, hset⟩ | ⟨haccount, -, -, -, hset⟩
  · obtain ⟨p, ids, -, -, -, -, -, -, -, hscopes, -⟩ := admitChild_ok hcall
    have hlt : i < s.ledger.scopes.length := (List.getElem?_eq_some_iff.mp hn).1
    refine ⟨n, by rw [hscopes, List.getElem?_append_left hlt, hn], rfl, .keep rfl ?_⟩
    rw [hset]; rfl
  · obtain ⟨_, ids, -, -, -, hids, -, -, -, -, -, -, hloop, -⟩ := reserve_ok hcall
    have hget := updatePath_getElem? (hm.tree.path_nodup hids) hloop i
    by_cases hi : i ∈ ids
    · rw [if_pos hi, hn] at hget
      obtain ⟨hopen, hfit⟩ := reserve_fits hcall hids hi hn
      exact ⟨_, hget, rfl, .reserve r.tokens hopen hfit rfl hset⟩
    · rw [if_neg hi, hn] at hget
      exact ⟨n, hget, rfl, .keep rfl (by rw [hset]; rfl)⟩
  · obtain ⟨hlinks, hcharged, hcases⟩ := settle_getElem? hm hx hcall
    have hlt : i < t.ledger.scopes.length := by
      rw [← links_isSome, hlinks, links_isSome]
      exact (List.getElem?_eq_some_iff.mp hn).1
    obtain ⟨m, m', hmi, hf, hn'⟩ := hcases (List.getElem?_eq_getElem hlt)
    obtain rfl : n = m := Option.some.inj (hn.symm.trans hmi)
    refine ⟨_, List.getElem?_eq_getElem hlt, ?_⟩
    rw [hn']
    rcases hf with ⟨hb, hf⟩ | ⟨hb, rfl⟩
    · obtain ⟨hle, rfl⟩ := settleScope_eq_some.mp hf
      rw [hcharged] at hset
      exact ⟨rfl, .settle x _ _ hx hb hle rfl hset⟩
    · refine ⟨rfl, .keep rfl ?_⟩
      rw [hset, Forest.total_snoc, if_neg hb, Nat.add_zero]; rfl
  · have hi := haccount i
    rw [hn, Option.map_some, Option.map_eq_some_iff] at hi
    obtain ⟨n', hn', heq⟩ := hi
    simp only [Scope.account, Prod.mk.injEq] at heq
    exact ⟨n', hn', heq.1, .keep heq.2.1 (by rw [hset]; rfl)⟩

theorem BudgetStep.limit_eq {s t : Session} {i : NodeId} {b b' : BudgetSnapshot}
    (h : BudgetStep s t i b b') : b'.limit = b.limit := by
  cases h with
  | keep heq _ => rw [heq]
  | reserve _ _ _ heq _ => rw [heq]
  | settle _ _ _ _ _ _ heq _ => rw [heq]

theorem BudgetStep.closed_mono {s t : Session} {i : NodeId} {b b' : BudgetSnapshot}
    (h : BudgetStep s t i b b') (hclosed : b.closed = true) : b'.closed = true := by
  cases h with
  | keep heq _ => rw [heq]; exact hclosed
  | reserve _ hopen _ _ _ => rw [hclosed] at hopen; cases hopen
  | settle _ _ _ _ _ _ heq _ => rw [heq, hclosed]; rfl

/-! ### The invariant -/

/-- Open scopes are within their limits, limits are nested, and overshoot is
    covered by the excess of settled attempts. -/
structure Bounded (s : Session) : Prop where
  within : ∀ {i : NodeId} {n : Scope}, s.ledger.scopes[i]? = some n →
    n.budget.closed = false → n.budget.used + n.budget.reserved ≤ n.budget.limit
  nested : ∀ {i p : NodeId} {n m : Scope}, s.ledger.scopes[i]? = some n →
    n.parent = some p → s.ledger.scopes[p]? = some m → n.budget.limit ≤ m.budget.limit
  overshoot : ∀ {i : NodeId} {n : Scope}, s.ledger.scopes[i]? = some n →
    n.budget.used + n.budget.reserved ≤ n.budget.limit + s.excessBelow i

/-- Every scope after a call is an old one with its budget step, or the one
    just admitted with its limit below its parent's. -/
theorem step_scope_inv {limits : Limits} {s t : Session} {l : Call} (hm : Matched s)
    (hstep : step limits s l = some t) {i : NodeId} {n' : Scope}
    (hn' : t.ledger.scopes[i]? = some n') :
    (∃ n, s.ledger.scopes[i]? = some n ∧ n'.parent = n.parent ∧
      BudgetStep s t i n.budget n'.budget) ∨
    (∃ parent depth agent limit p, n' = freshScope (some parent) depth agent limit ∧
      s.ledger.scopes[parent]? = some p ∧ limit ≤ p.budget.limit) := by
  by_cases hlt : i < s.ledger.scopes.length
  · have hn := List.getElem?_eq_getElem hlt
    obtain ⟨n₁, hn₁, hparent, hb⟩ := step_scope hm hstep hn
    obtain rfl : n₁ = n' := Option.some.inj (hn₁.symm.trans hn')
    exact Or.inl ⟨_, hn, hparent, hb⟩
  · rcases step_cases hstep with
      ⟨parent, agent, limit, id, -, hcall, -, -⟩ | ⟨node, e, m, r, -, hcall, -, -⟩ |
      ⟨x, charge, result, -, hx, hcall, -, -⟩ | ⟨haccount, -, -, -, -⟩
    · obtain ⟨p, ids, hp, -, -, -, -, -, -, hscopes, -⟩ := admitChild_ok hcall
      rw [hscopes, List.getElem?_append_right (Nat.le_of_not_lt hlt)] at hn'
      obtain rfl := List.mem_singleton.mp (List.mem_of_getElem? hn')
      exact Or.inr ⟨parent, _, _, _, p, rfl, hp, Nat.min_le_right _ _⟩
    all_goals exfalso; apply hlt; rw [← links_isSome]
    · obtain ⟨_, ids, -, -, -, -, -, -, -, -, -, -, hloop, -⟩ := reserve_ok hcall
      have hlinks : t.ledger.links = s.ledger.links :=
        links_updatePath (s := s.ledger)
          (fun n m hm => by obtain rfl := Option.some.inj hm; rfl) hloop
      simp [← hlinks, links_eq_some hn']
    · simp [← (settle_getElem? hm hx hcall).1, links_eq_some hn']
    · simp [← links_of_account haccount, links_eq_some hn']

theorem bounded_init (limits : Limits) : Bounded (sessions limits).init := by
  have hfresh : ∀ {i : NodeId} {n : Scope}, (sessions limits).init.ledger.scopes[i]? = some n →
      n = freshScope none 0 true limits.budgetTokens := by
    intro i n hn
    match i with
    | 0 => simpa [sessions, initial, eq_comm] using hn
    | i + 1 => simp [sessions, initial] at hn
  constructor
  · intro i n hn _; obtain rfl := hfresh hn; exact Nat.zero_le _
  · intro i p n m hn hp _; obtain rfl := hfresh hn; cases hp
  · intro i n hn; obtain rfl := hfresh hn; exact Nat.zero_le _

/-- A call keeps the links of existing scopes, hence the subtrees they are in. -/
theorem below_step {limits : Limits} {s t : Session} {l : Call} (hm : Matched s)
    (hstep : step limits s l = some t) {i j : NodeId} (hj : (s.ledger.links j).isSome) :
    Forest.Below t.ledger.links i j ↔ Forest.Below s.ledger.links i j := by
  have hext : ∀ k, (s.ledger.links k).isSome → t.ledger.links k = s.ledger.links k := by
    intro k hk
    have hn := List.getElem?_eq_getElem (links_isSome.mp hk)
    obtain ⟨n', hn', hparent, _⟩ := step_scope hm hstep hn
    rw [links_eq_some hn', links_eq_some hn, hparent]
  exact Forest.below_extend hm.tree.ordered hext hj

/-- Totals over the settlements only depend on old links for old scopes. -/
theorem settledBelow_step {M : Type} [AddMonoid M] {limits : Limits} {s t : Session} {l : Call}
    (hm : Matched s) (hstep : step limits s l = some t) (weight : Settled → M) (i : NodeId) :
    Forest.total t.ledger.links (fun x : Settled => x.issued.node) weight t.settled i =
      Forest.total s.ledger.links (fun x : Settled => x.issued.node) weight t.settled i := by
  refine Forest.total_congr fun x hx => below_step hm hstep ?_
  rcases step_cases hstep with
    ⟨_, _, _, _, -, -, -, hset⟩ | ⟨_, _, _, _, -, -, -, hset⟩ |
    ⟨y, _, _, -, hy, -, -, hset⟩ | ⟨-, -, -, -, hset⟩ <;> rw [hset] at hx
  · exact hm.settledPlaced x hx
  · exact hm.settledPlaced x hx
  · rcases List.mem_append.mp hx with hx | hx
    · exact hm.settledPlaced x hx
    · obtain rfl := List.mem_singleton.mp hx
      exact hm.placed y hy
  · exact hm.settledPlaced x hx

theorem excessBelow_step {limits : Limits} {s t : Session} {l : Call} (hm : Matched s)
    (hstep : step limits s l = some t) (i : NodeId) :
    t.excessBelow i = Forest.total s.ledger.links (fun x : Settled => x.issued.node)
      Settled.excess t.settled i :=
  settledBelow_step hm hstep Settled.excess i

/-- A call changes the usage of a scope only by settling below it. -/
theorem usage_step {limits : Limits} {s t : Session} {l : Call}
    (h : (sessions limits).Reachable s) (hstep : step limits s l = some t) {i : NodeId}
    (hi : i < s.ledger.scopes.length)
    (hquiet : ∀ x charge, l = .settle x charge → x ∈ s.outstanding →
      ¬ Forest.Below s.ledger.links i x.node) : usage t.ledger i = usage s.ledger i := by
  have hm := matched_of_reachable h
  have hcounted := counted_of_reachable h
  have hcounted' := counted_of_reachable (h.next hstep)
  have hn := List.getElem?_eq_getElem hi
  obtain ⟨n', hn', -, -⟩ := step_scope hm hstep hn
  have hsame : t.usageAt i = s.usageAt i ∧ t.usageBelow i = s.usageBelow i := by
    unfold Session.usageAt Session.usageBelow
    rw [settledBelow_step hm hstep]
    rcases step_cases hstep with
      ⟨_, _, _, _, -, -, -, hset⟩ | ⟨_, _, _, _, -, -, -, hset⟩ |
      ⟨x, charge, _, hl, hx, -, -, hset⟩ | ⟨-, -, -, -, hset⟩
    · rw [hset]
      exact ⟨rfl, rfl⟩
    · rw [hset]
      exact ⟨rfl, rfl⟩
    · -- What is settled now lies elsewhere.
      have hnot := hquiet x charge hl hx
      have hne : x.node ≠ i := fun heq => hnot (heq ▸ Forest.Below.refl _)
      rw [hset, Forest.ownTotal_snoc, Forest.total_snoc, if_neg hne, if_neg hnot]
      exact ⟨add_zero _, add_zero _⟩
    · rw [hset]
      exact ⟨rfl, rfl⟩
  unfold usage
  rw [hn, hn', Option.map_some, Option.map_some, hcounted'.own hn', hcounted'.usage hn',
    hcounted.own hn, hcounted.usage hn, hsame.1, hsame.2]

/-- A budget step keeps the overshoot bound. -/
theorem BudgetStep.overshoot {s t : Session} {i : NodeId} {b b' : BudgetSnapshot}
    (h : BudgetStep s t i b b') (hb : b.used + b.reserved ≤ b.limit + s.excessBelow i) :
    b'.used + b'.reserved ≤ b'.limit + Forest.total s.ledger.links
      (fun x : Settled => x.issued.node) Settled.excess t.settled i := by
  classical
  cases h with
  | keep heq hset => rw [heq, hset]; exact hb
  | reserve tokens hopen hfit heq hset =>
    rw [heq]
    simp only
    omega
  | settle x charged usage hx hbelow hle heq hset =>
    rw [heq, hset, Forest.total_snoc, if_pos hbelow]
    have hex : s.excessBelow i = Forest.total s.ledger.links
      (fun x : Settled => x.issued.node) Settled.excess s.settled i := rfl
    simp only [Settled.excess] at hex ⊢
    omega

theorem bounded_step {limits : Limits} {s t : Session} {l : Call} (hm : Matched s)
    (hm' : Matched t) (h : Bounded s) (hstep : step limits s l = some t) : Bounded t := by
  constructor
  · intro i n' hn' hopen
    rcases step_scope_inv hm hstep hn' with ⟨n, hn, -, hb⟩ | ⟨_, _, _, _, _, rfl, -, -⟩
    · cases hb with
      | keep heq _ =>
        rw [heq] at hopen ⊢
        exact h.within hn hopen
      | reserve tokens _ hfit heq _ =>
        rw [heq]
        simp only
        omega
      | settle x charged usage _ _ _ heq _ =>
        rw [heq] at hopen ⊢
        simp only [Bool.or_eq_false_iff, decide_eq_false_iff_not, Nat.not_lt] at hopen
        exact hopen.2
    · exact Nat.zero_le _
  · intro i p n' m' hn' hp hm''
    -- Limits never change, and a new scope's limit is capped by its parent's.
    have hlimit : ∀ {j : NodeId} {a a' : Scope}, s.ledger.scopes[j]? = some a →
        t.ledger.scopes[j]? = some a' → a'.budget.limit = a.budget.limit := by
      intro j a a' ha ha'
      obtain ⟨a₁, ha₁, -, hb⟩ := step_scope hm hstep ha
      obtain rfl : a₁ = a' := Option.some.inj (ha₁.symm.trans ha')
      exact hb.limit_eq
    have hknown : p < i := (hm'.tree.ordered i p (by rw [links_eq_some hn', hp])).1
    rcases step_scope_inv hm hstep hn' with
      ⟨n, hn, hparent, hb⟩ | ⟨parent, _, _, limit, p₀, rfl, hp₀, hle⟩
    · have hlt := (List.getElem?_eq_some_iff.mp hn).1
      have hpar := List.getElem?_eq_getElem (Nat.lt_trans hknown hlt)
      rw [hb.limit_eq, hlimit hpar hm'']
      exact h.nested hn (hparent ▸ hp) hpar
    · obtain rfl : parent = p := Option.some.inj hp
      rw [hlimit hp₀ hm'']
      exact hle
  · intro i n' hn'
    rw [excessBelow_step hm hstep]
    rcases step_scope_inv hm hstep hn' with ⟨n, hn, -, hb⟩ | ⟨_, _, _, _, _, rfl, -, -⟩
    · exact hb.overshoot (h.overshoot hn)
    · exact Nat.zero_le _

theorem bounded_of_reachable {limits : Limits} {s : Session}
    (h : (sessions limits).Reachable s) : Bounded s :=
  LTS.System.invariant_with (fun _ => matched_of_reachable) (bounded_init limits)
    (fun _ _ _ hm hm' hs _ hstep => bounded_step hm hm' hs hstep) s h

/-- A descendant's limit is at most its ancestor's. -/
theorem Bounded.limit_le {s : Session} (hm : Matched s) (h : Bounded s) {i j : NodeId}
    {n m : Scope} (hb : Forest.Below s.ledger.links i j) (hn : s.ledger.scopes[i]? = some n)
    (hm' : s.ledger.scopes[j]? = some m) : m.budget.limit ≤ n.budget.limit := by
  induction hb using Relation.ReflTransGen.head_induction_on generalizing m with
  | refl =>
    obtain rfl : n = m := Option.some.inj (hn.symm.trans hm')
    exact Nat.le_refl _
  | head hp _ ih =>
    have hlink := hp
    unfold Forest.IsParent at hlink
    rw [links_eq_some hm', Option.some.injEq] at hlink
    have hpar := List.getElem?_eq_getElem (links_isSome.mp (hm.tree.ordered _ _ hp).2)
    exact Nat.le_trans (h.nested hm' hlink hpar) (ih hpar)

/-! ### Each reservation settles at most once -/

/-- The ids of all reservations ever made are distinct and were allocated. -/
structure Once (s : Session) : Prop where
  nodup : ((s.outstanding ++ s.settled.map Settled.issued).map
    fun x => x.reservation.id).Nodup
  fresh : ∀ x ∈ s.outstanding ++ s.settled.map Settled.issued,
    x.reservation.id < s.ledger.nextAttempt

theorem once_step {limits : Limits} {s t : Session} {l : Call} (h : Once s)
    (hstep : step limits s l = some t) : Once t := by
  rcases step_cases hstep with
    ⟨_, _, _, _, -, hcall, hout, hset⟩ | ⟨node, e, m, r, -, hcall, hout, hset⟩ |
    ⟨x, charge, result, -, hx, hcall, hout, hset⟩ | ⟨-, -, hnext, hout, hset⟩
  · obtain ⟨_, _, -, -, -, -, -, -, -, -, -, hnext, -⟩ := admitChild_ok hcall
    exact ⟨by rw [hout, hset]; exact h.nodup, by rw [hout, hset, hnext]; exact h.fresh⟩
  · obtain ⟨_, _, -, -, -, -, -, -, -, -, -, hid, -, hnext, -⟩ := reserve_ok hcall
    have hperm : (t.outstanding ++ t.settled.map Settled.issued).Perm
        (⟨node, r⟩ :: (s.outstanding ++ s.settled.map Settled.issued)) := by
      rw [hout, hset, List.append_assoc]
      exact List.perm_middle
    constructor
    · rw [(hperm.map _).nodup_iff, List.map_cons, List.nodup_cons]
      refine ⟨fun hmem => ?_, h.nodup⟩
      obtain ⟨y, hy, heq⟩ := List.mem_map.mp hmem
      have hlt := h.fresh y hy
      rw [heq, hid] at hlt
      exact Nat.lt_irrefl _ hlt
    · intro y hy
      rw [hnext]
      rcases List.mem_cons.mp (hperm.mem_iff.mp hy) with rfl | hy
      · simp [hid]
      · exact Nat.lt_succ_of_lt (h.fresh y hy)
  · obtain ⟨_, _, _, _, -, -, -, -, -, -, hnext, -⟩ := settle_ok hcall
    have hperm : (t.outstanding ++ t.settled.map Settled.issued).Perm
        (s.outstanding ++ s.settled.map Settled.issued) := by
      rw [hout, hset, List.map_append, ← List.append_assoc]
      refine List.perm_append_comm.trans ?_
      exact ((List.perm_cons_erase hx).symm.append_right _)
    exact ⟨by rw [(hperm.map _).nodup_iff]; exact h.nodup,
      fun y hy => by rw [hnext]; exact h.fresh y (hperm.mem_iff.mp hy)⟩
  · exact ⟨by rw [hout, hset]; exact h.nodup, by rw [hout, hset, hnext]; exact h.fresh⟩

theorem once_init (limits : Limits) : Once (sessions limits).init :=
  ⟨by simp [sessions], by simp [sessions]⟩

theorem once_of_reachable {limits : Limits} {s : Session}
    (h : (sessions limits).Reachable s) : Once s :=
  LTS.System.invariant (once_init limits) (fun _ _ _ hs _ hstep => once_step hs hstep) s h

/-! ### The closing settlement -/

/-- Excess with which a reservation was settled, zero while it is not. -/
def Session.excessOf (s : Session) (x : Issued) : Nat :=
  ((s.settled.find? fun y => y.issued == x).map Settled.excess).getD 0

theorem excessOf_mono {s t : Session} {ys : List Settled} (hset : t.settled = s.settled ++ ys)
    (x : Issued) : s.excessOf x ≤ t.excessOf x := by
  unfold Session.excessOf
  rw [hset, List.find?_append]
  cases s.settled.find? fun y => y.issued == x with
  | none => exact Nat.zero_le _
  | some y => exact Nat.le_refl _

/-- A call only appends to the history. -/
theorem settled_step {limits : Limits} {s t : Session} {l : Call}
    (hstep : step limits s l = some t) : ∃ ys, t.settled = s.settled ++ ys := by
  rcases step_cases hstep with
    ⟨_, _, _, _, -, -, -, hset⟩ | ⟨_, _, _, _, -, -, -, hset⟩ |
    ⟨_, _, _, -, -, -, -, hset⟩ | ⟨-, -, -, -, hset⟩
  · exact ⟨[], by rw [hset, List.append_nil]⟩
  · exact ⟨[], by rw [hset, List.append_nil]⟩
  · exact ⟨_, hset⟩
  · exact ⟨[], by rw [hset, List.append_nil]⟩

/-- An outstanding reservation has no settlement yet. -/
theorem Once.not_settled {s : Session} (h : Once s) {x : Issued} (hx : x ∈ s.outstanding) :
    ∀ y ∈ s.settled, y.issued ≠ x := by
  intro y hy heq
  have hdisjoint := List.nodup_append.mp (List.map_append ▸ h.nodup)
  apply hdisjoint.2.2 _ (List.mem_map_of_mem hx) _ ?_ rfl
  exact List.mem_map.mpr ⟨x, List.mem_map.mpr ⟨y, hy, heq⟩, rfl⟩

theorem Once.find?_settled {s : Session} (h : Once s) {x : Issued} (hx : x ∈ s.outstanding) :
    (s.settled.find? fun y => y.issued == x) = none :=
  List.find?_eq_none.mpr fun y hy => by simpa using h.not_settled hx y hy

theorem Once.excessOf_eq_zero {s : Session} (h : Once s) {x : Issued}
    (hx : x ∈ s.outstanding) : s.excessOf x = 0 := by
  unfold Session.excessOf
  rw [h.find?_settled hx]; rfl

/-- Total excess, in `u`, of the reservations that were outstanding below `i`
    in `s`. -/
noncomputable def Session.heldExcess (s u : Session) (i : NodeId) : Nat :=
  Forest.total s.ledger.links Issued.node u.excessOf s.outstanding i

/-- Since `s`, the subtree of `i` has only settled reservations it already
    held, and its overshoot is their excess. -/
structure Frozen (s u : Session) (i : NodeId) : Prop where
  held : ∀ x ∈ u.outstanding, Forest.Below u.ledger.links i x.node →
    x ∈ s.outstanding ∧ Forest.Below s.ledger.links i x.node
  bound : ∃ n, u.ledger.scopes[i]? = some n ∧
    n.budget.used + n.budget.reserved ≤ n.budget.limit + s.heldExcess u i

theorem frozen_self {s : Session} (h : Bounded s) {i : NodeId} {n : Scope}
    (hn : s.ledger.scopes[i]? = some n) (hopen : n.budget.closed = false) : Frozen s s i :=
  ⟨fun _ hx hb => ⟨hx, hb⟩, n, hn, Nat.le_trans (h.within hn hopen) (Nat.le_add_right _ _)⟩

/-- Settling a held reservation adds its excess to the total. -/
theorem heldExcess_settle {s u t : Session} {x : Issued} {charged : Nat} {usage : Usage}
    (h : Once u) {i : NodeId} (hx : x ∈ u.outstanding) (hxs : x ∈ s.outstanding)
    (hb : Forest.Below s.ledger.links i x.node)
    (hset : t.settled = u.settled ++ [⟨x, charged, usage⟩]) :
    s.heldExcess u i + (charged - x.reservation.tokens) ≤ s.heldExcess t i := by
  classical
  have hzero := h.excessOf_eq_zero hx
  have hone : t.excessOf x = charged - x.reservation.tokens := by
    unfold Session.excessOf
    rw [hset, List.find?_append, h.find?_settled hx]
    simp [Settled.excess]
  have hrest : Forest.total s.ledger.links Issued.node u.excessOf (s.outstanding.erase x) i ≤
      Forest.total s.ledger.links Issued.node t.excessOf (s.outstanding.erase x) i :=
    Forest.total_le fun y _ => excessOf_mono hset y
  have hsplit : ∀ v : Session, s.heldExcess v i = v.excessOf x +
      Forest.total s.ledger.links Issued.node v.excessOf (s.outstanding.erase x) i := by
    intro v
    unfold Session.heldExcess
    rw [Forest.total_erase hxs, if_pos hb]
  rw [hsplit u, hsplit t, hzero, hone]
  omega

/-- A settlement anywhere, or any call while the scope is closed, keeps its
    subtree frozen. -/
theorem frozen_step {limits : Limits} {s u t : Session} {l : Call} (hm : Matched u)
    (ho : Once u) {i : NodeId} (h : Frozen s u i)
    (hquiet : (∃ x charge, l = .settle x charge) ∨
      ∃ n, u.ledger.scopes[i]? = some n ∧ n.budget.closed = true)
    (hstep : step limits u l = some t) : Frozen s t i := by
  have hbelow : ∀ {j : NodeId}, (u.ledger.links j).isSome →
      (Forest.Below t.ledger.links i j ↔ Forest.Below u.ledger.links i j) :=
    fun hj => below_step hm hstep hj
  constructor
  · -- Only a reservation could add to the subtree, and it is refused there.
    intro x hx hb
    have hold : x ∈ u.outstanding →
        x ∈ s.outstanding ∧ Forest.Below s.ledger.links i x.node := fun hx' =>
      h.held x hx' ((hbelow (hm.placed x hx')).mp hb)
    rcases step_cases hstep with
      ⟨_, _, _, _, -, -, hout, -⟩ | ⟨node, e, m, r, rfl, hcall, hout, -⟩ |
      ⟨y, _, _, -, -, -, hout, -⟩ | ⟨-, -, -, hout, -⟩ <;> rw [hout] at hx
    · exact hold hx
    · rcases List.mem_append.mp hx with hx | hx
      · exact hold hx
      · obtain rfl := List.mem_singleton.mp hx
        obtain ⟨n, hn, hclosed⟩ := hquiet.resolve_left fun ⟨_, _, hl⟩ => by cases hl
        obtain ⟨_, _, hnode, -⟩ := reserve_ok hcall
        have hb' := (hbelow (by rw [links_eq_some hnode]; rfl)).mp hb
        exact absurd hcall (reserve_closed hn hclosed hb' e m _ _)
    · exact hold (List.mem_of_mem_erase hx)
    · exact hold hx
  · obtain ⟨n, hn, hle⟩ := h.bound
    obtain ⟨n', hn', -, hbudget⟩ := step_scope hm hstep hn
    obtain ⟨ys, hys⟩ := settled_step hstep
    have hgrow : s.heldExcess u i ≤ s.heldExcess t i :=
      Forest.total_le fun y _ => excessOf_mono hys y
    refine ⟨n', hn', ?_⟩
    cases hbudget with
    | keep heq _ =>
      rw [heq]
      omega
    | reserve tokens _ hfit heq _ =>
      rw [heq]
      simp only
      omega
    | settle x charged usage hx hb htokens heq hset =>
      obtain ⟨hxs, hbs⟩ := h.held x hx hb
      have hmore := heldExcess_settle ho hx hxs hbs hset
      rw [heq]
      simp only
      omega

/-- A closed scope stays closed in a call. -/
theorem closed_step {limits : Limits} {s t : Session} {l : Call} (hm : Matched s)
    (hstep : step limits s l = some t) {i : NodeId}
    (hclosed : ∃ n, s.ledger.scopes[i]? = some n ∧ n.budget.closed = true) :
    ∃ n, t.ledger.scopes[i]? = some n ∧ n.budget.closed = true := by
  obtain ⟨n, hn, hc⟩ := hclosed
  obtain ⟨n', hn', -, hb⟩ := step_scope hm hstep hn
  exact ⟨n', hn', hb.closed_mono hc⟩

/-- Closed scopes stay closed in every run. -/
theorem closed_run {limits : Limits} {s u : Session} {ls : List Call}
    (h : (sessions limits).Reachable s) (hrun : (sessions limits).run s ls = some u)
    {i : NodeId} (hclosed : ∃ n, s.ledger.scopes[i]? = some n ∧ n.budget.closed = true) :
    ∃ n, u.ledger.scopes[i]? = some n ∧ n.budget.closed = true := by
  have hkeep := (sessions limits).run_invariant
    (P := fun s => (sessions limits).Reachable s ∧
      ∃ n, s.ledger.scopes[i]? = some n ∧ n.budget.closed = true)
    (fun s l t ⟨hs, hc⟩ hstep =>
      ⟨hs.next hstep, closed_step (matched_of_reachable hs) hstep hc⟩) ⟨h, hclosed⟩ hrun
  exact hkeep.2

/-- A closed scope's subtree stays frozen in every run. -/
theorem frozen_run {limits : Limits} {s t u : Session} {ls : List Call}
    (ht : (sessions limits).Reachable t) {i : NodeId} (h : Frozen s t i)
    (hclosed : ∃ n, t.ledger.scopes[i]? = some n ∧ n.budget.closed = true)
    (hrun : (sessions limits).run t ls = some u) : Frozen s u i := by
  have hkeep := (sessions limits).run_invariant
    (P := fun u => (sessions limits).Reachable u ∧
      (∃ n, u.ledger.scopes[i]? = some n ∧ n.budget.closed = true) ∧ Frozen s u i)
    (fun u l v ⟨hu, hc, hf⟩ hstep => by
      have hmu := matched_of_reachable hu
      refine ⟨hu.next hstep, closed_step hmu hstep hc, ?_⟩
      exact frozen_step hmu (once_of_reachable hu) hf (Or.inr hc) hstep)
    ⟨ht, hclosed, h⟩ hrun
  exact hkeep.2.2

/-! ### Budget safety -/

/-- Budget safety of a session and of every run that continues it. -/
structure BudgetSafe (limits : Limits) (s : Session) : Prop where
  within : ∀ {i : NodeId} {n : Scope}, s.ledger.scopes[i]? = some n →
    n.budget.closed = false → n.budget.used + n.budget.reserved ≤ n.budget.limit
  nested : ∀ {i j : NodeId} {n m : Scope}, Forest.Below s.ledger.links i j →
    s.ledger.scopes[i]? = some n → s.ledger.scopes[j]? = some m →
    m.budget.limit ≤ n.budget.limit
  closed : ∀ {i : NodeId} {n : Scope} {ls : List Call} {u : Session},
    s.ledger.scopes[i]? = some n → n.budget.closed = true →
    (sessions limits).run s ls = some u →
    ∃ n', u.ledger.scopes[i]? = some n' ∧ n'.budget.closed = true
  refused : ∀ {i j : NodeId} {n : Scope}, s.ledger.scopes[i]? = some n →
    n.budget.closed = true → Forest.Below s.ledger.links i j →
    (∀ e m ledger r, reserve s.ledger j e m ≠ some (ledger, .ok r)) ∧
    ∀ agent limit ledger id, admitChild limits s.ledger j agent limit ≠ some (ledger, .ok id)
  overshoot : ∀ {i : NodeId} {n : Scope}, s.ledger.scopes[i]? = some n →
    n.budget.used + n.budget.reserved ≤ n.budget.limit + s.excessBelow i
  /-- A settlement in `s` closes `i`: in every continuation the overshoot is
      within the excess of what was outstanding below `i` in `s`. -/
  final : ∀ {i : NodeId} {n m : Scope} {x : Issued} {charge : Charge} {t : Session},
    s.ledger.scopes[i]? = some n → n.budget.closed = false →
    (sessions limits).step s (.settle x charge) = some t →
    t.ledger.scopes[i]? = some m → m.budget.closed = true →
    ∀ {ls : List Call} {u : Session}, (sessions limits).run t ls = some u →
    ∃ n', u.ledger.scopes[i]? = some n' ∧
      n'.budget.used + n'.budget.reserved ≤ n'.budget.limit + s.heldExcess u i

/-- Every reachable session is budget safe. -/
theorem budget_safety (limits : Limits) {s : Session}
    (h : (sessions limits).Reachable s) : BudgetSafe limits s := by
  have hm := matched_of_reachable h
  have hb := bounded_of_reachable h
  refine ⟨hb.within, hb.limit_le hm, fun hn hclosed hrun => closed_run h hrun ⟨_, hn, hclosed⟩,
    fun hn hclosed hbelow => ⟨reserve_closed hn hclosed hbelow,
      admitChild_closed hn hclosed hbelow⟩, hb.overshoot, ?_⟩
  intro i n m x charge t hn hopen hstep hm' hclosed ls u hrun
  have ht : (sessions limits).Reachable t := .step h trivial hstep
  have hcall : step limits s (.settle x charge) = some t := hstep
  have hfrozen : Frozen s t i := frozen_step hm (once_of_reachable h)
    (frozen_self hb hn hopen) (Or.inl ⟨x, charge, rfl⟩) hcall
  exact (frozen_run ht hfrozen ⟨m, hm', hclosed⟩ hrun).bound

/-- Two reservations below a small child scope, the first settled above both
    the scope's limit and its own estimate. -/
def overshootCalls : List Call :=
  [.admitChild 0 true (some 6000), .reserve 1 0 3000, .reserve 1 0 2000,
    .settle ⟨1, ⟨0, 3000, 3000⟩⟩ (.usage ⟨1000, 3500, 0, 0⟩),
    .settle ⟨1, ⟨1, 2000, 2000⟩⟩ (.usage ⟨100, 2000, 0, 0⟩)]

theorem budget_safety_overshoot : ∃ s n,
    (sessions .default).run (sessions .default).init overshootCalls = some s ∧
      s.ledger.scopes[1]? = some n ∧ n.budget.closed = true ∧ n.budget.used = 6600 ∧
      n.budget.limit = 6000 ∧ BudgetSafe .default s := by
  have hrun : ∃ s n, (sessions .default).run (sessions .default).init overshootCalls = some s ∧
      s.ledger.scopes[1]? = some n ∧ n.budget.closed = true ∧ n.budget.used = 6600 ∧
      n.budget.limit = 6000 := ⟨_, _, rfl, rfl, rfl, rfl, rfl⟩
  obtain ⟨s, n, hs, hn, hclosed, hused, hlimit⟩ := hrun
  exact ⟨s, n, hs, hn, hclosed, hused, hlimit,
    budget_safety .default (LTS.System.reachable_of_run hs)⟩

end Kyora.Ledger
