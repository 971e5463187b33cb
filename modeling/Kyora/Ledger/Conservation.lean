import Kyora.Ledger.Session

/-! # Conservation

  The counters of a scope are sums over the attempts of its subtree: tokens
  of the unsettled ones, charges and usages of the settled ones. The
  invariant `Counted` states this against the history the callers hold; it
  survives every call, and with it the settlement loop never underflows.
-/

namespace Kyora.Ledger

/-! ### Sums over the attempts of a subtree -/

namespace Session

/-- Tokens of the unsettled attempts in the subtree of `i`. -/
noncomputable def reservedBelow (s : Session) (i : NodeId) : Nat :=
  Forest.total s.ledger.links Issued.node (fun x => x.reservation.tokens) s.outstanding i

/-- Charges of the settled attempts in the subtree of `i`. -/
noncomputable def chargedBelow (s : Session) (i : NodeId) : Nat :=
  Forest.total s.ledger.links (fun x : Settled => x.issued.node) Settled.charged s.settled i

/-- Usages recorded for the settled attempts in the subtree of `i`. -/
noncomputable def usageBelow (s : Session) (i : NodeId) : Usage :=
  Forest.total s.ledger.links (fun x : Settled => x.issued.node) Settled.usage s.settled i

/-- Usages recorded for the settled attempts of `i` alone. -/
noncomputable def usageAt (s : Session) (i : NodeId) : Usage :=
  Forest.ownTotal (fun x : Settled => x.issued.node) Settled.usage s.settled i

end Session

/-- The children of a scope, in admission order. -/
def State.children (s : State) (i : NodeId) : List NodeId :=
  (List.range s.scopes.length).filter fun c => s.links c = some (some i)

theorem mem_children {s : State} {i c : NodeId} :
    c ∈ s.children i ↔ Forest.IsParent s.links c i := by
  unfold State.children Forest.IsParent
  simp only [List.mem_filter, List.mem_range, decide_eq_true_eq, and_iff_right_iff_imp]
  intro h
  exact links_isSome.mp (by simp [h])

/-- Subtree usage of a scope, as `Ledger::usage` reports it. -/
def State.subtreeUsage (s : State) (i : NodeId) : Usage := ((usage s i).map Prod.snd).getD 0

/-! ### The invariant -/

/-- Every counter of every scope is the sum it stands for. -/
structure Counted (s : Session) : Prop where
  reserved : ∀ {i : NodeId} {n : Scope}, s.ledger.scopes[i]? = some n →
    n.budget.reserved = s.reservedBelow i
  used : ∀ {i : NodeId} {n : Scope}, s.ledger.scopes[i]? = some n →
    n.budget.used = s.chargedBelow i
  usage : ∀ {i : NodeId} {n : Scope}, s.ledger.scopes[i]? = some n →
    n.usage = s.usageBelow i
  own : ∀ {i : NodeId} {n : Scope}, s.ledger.scopes[i]? = some n → n.own = s.usageAt i

theorem counted_init (limits : Limits) : Counted (sessions limits).init := by
  have hfresh : ∀ (i : NodeId) (n : Scope), (sessions limits).init.ledger.scopes[i]? = some n →
      n = freshScope none 0 true limits.budgetTokens := by
    intro i n hn
    match i with
    | 0 => simpa [sessions, initial, eq_comm] using hn
    | i + 1 => simp [sessions, initial] at hn
  constructor <;> intro i n hn <;> obtain rfl := hfresh i n hn <;> rfl

/-- Admission: old scopes keep their sums and nothing lies below the new one. -/
theorem counted_admitChild {s t : Session} {n₀ : Scope} {parent : NodeId}
    (hm : Matched s) (h : Counted s)
    (hscopes : t.ledger.scopes = s.ledger.scopes ++ [n₀])
    (hn₀ : ∃ depth agent limit, n₀ = freshScope (some parent) depth agent limit)
    (hout : t.outstanding = s.outstanding) (hset : t.settled = s.settled) : Counted t := by
  have hext : ∀ i, (s.ledger.links i).isSome → t.ledger.links i = s.ledger.links i :=
    fun i hi => links_append hscopes hi
  have hbelow : ∀ i {n : NodeId}, (s.ledger.links n).isSome →
      (Forest.Below s.ledger.links i n ↔ Forest.Below t.ledger.links i n) := fun i n hn =>
    (Forest.below_extend hm.tree.ordered hext hn).symm
  -- An old scope, or the new one with nothing below it.
  have hcases : ∀ {i : NodeId} {n : Scope}, t.ledger.scopes[i]? = some n →
      s.ledger.scopes[i]? = some n ∨
        (n = n₀ ∧ ∀ x, (s.ledger.links x).isSome → ¬ Forest.Below t.ledger.links i x) := by
    intro i n hn
    rw [hscopes] at hn
    by_cases hlt : i < s.ledger.scopes.length
    · rw [List.getElem?_append_left hlt] at hn
      exact Or.inl hn
    · rw [List.getElem?_append_right (Nat.le_of_not_lt hlt)] at hn
      refine Or.inr ⟨(List.mem_singleton.mp (List.mem_of_getElem? hn)), fun x hx hb => ?_⟩
      have hi := ((hbelow i hx).mpr hb).known hm.tree.ordered hx
      exact hlt (links_isSome.mp hi)
  obtain ⟨depth, agent, limit, rfl⟩ := hn₀
  constructor <;> intro i n hn <;> rcases hcases hn with hold | ⟨rfl, hnone⟩
  · rw [h.reserved hold]
    unfold Session.reservedBelow
    rw [hout]
    exact Forest.total_congr fun x hx => hbelow i (hm.placed x hx)
  · unfold Session.reservedBelow
    rw [hout, Forest.total_eq_zero fun x hx => hnone _ (hm.placed x hx)]
    rfl
  · rw [h.used hold]
    unfold Session.chargedBelow
    rw [hset]
    exact Forest.total_congr fun x hx => hbelow i (hm.settledPlaced x hx)
  · unfold Session.chargedBelow
    rw [hset, Forest.total_eq_zero fun x hx => hnone _ (hm.settledPlaced x hx)]
    rfl
  · rw [h.usage hold]
    unfold Session.usageBelow
    rw [hset]
    exact Forest.total_congr fun x hx => hbelow i (hm.settledPlaced x hx)
  · unfold Session.usageBelow
    rw [hset, Forest.total_eq_zero fun x hx => hnone _ (hm.settledPlaced x hx)]
    rfl
  · rw [h.own hold]
    unfold Session.usageAt
    rw [hset]
  · unfold Session.usageAt
    rw [hset, Forest.ownTotal_eq_zero]
    · rfl
    · intro x hx heq
      have hx' := hm.settledPlaced x hx
      exact hnone _ hx' (by rw [heq]; exact .refl i)

/-- Reservation: the tokens are added on the path, where the new attempt
    counts. -/
theorem counted_reserve {s t : Session} {node : NodeId} {ids : List NodeId}
    {r : Reservation} (hm : Matched s) (h : Counted s)
    (hids : path s.ledger node = some ids)
    (hloop : updatePath (fun n => some (addReserved r.tokens n)) ids s.ledger.scopes =
      some t.ledger.scopes)
    (hout : t.outstanding = s.outstanding ++ [⟨node, r⟩]) (hset : t.settled = s.settled) :
    Counted t := by
  have hlinks : t.ledger.links = s.ledger.links :=
    links_updatePath (s := s.ledger) (fun n m hm => by obtain rfl := Option.some.inj hm; rfl)
      hloop
  have hcases : ∀ {i : NodeId} {n : Scope}, t.ledger.scopes[i]? = some n →
      ∃ m, s.ledger.scopes[i]? = some m ∧
        n = if i ∈ ids then addReserved r.tokens m else m := by
    intro i n hn
    rw [updatePath_getElem? (hm.tree.path_nodup hids) hloop] at hn
    split at hn
    · next hi =>
      obtain ⟨m, hm', hn'⟩ := Option.bind_eq_some_iff.mp hn
      exact ⟨m, hm', by rw [if_pos hi]; exact (Option.some.inj hn').symm⟩
    · next hi => exact ⟨n, hn, by rw [if_neg hi]⟩
  have hsame : ∀ {i : NodeId} {m : Scope},
      (if i ∈ ids then addReserved r.tokens m else m).budget.used = m.budget.used ∧
      (if i ∈ ids then addReserved r.tokens m else m).usage = m.usage ∧
      (if i ∈ ids then addReserved r.tokens m else m).own = m.own := by
    intro i m
    split <;> exact ⟨rfl, rfl, rfl⟩
  constructor <;> intro i n hn <;> obtain ⟨m, hm', rfl⟩ := hcases hn
  · unfold Session.reservedBelow
    rw [hlinks, hout, Forest.total_snoc]
    by_cases hi : i ∈ ids
    · rw [if_pos hi, if_pos ((mem_path hids i).mp hi)]
      exact congrArg (· + r.tokens) (h.reserved hm')
    · rw [if_neg hi, if_neg fun hb => hi ((mem_path hids i).mpr hb)]
      exact h.reserved hm'
  · rw [hsame.1, h.used hm']
    unfold Session.chargedBelow
    rw [hlinks, hset]
  · rw [hsame.2.1, h.usage hm']
    unfold Session.usageBelow
    rw [hlinks, hset]
  · rw [hsame.2.2, h.own hm']
    unfold Session.usageAt
    rw [hset]

/-- A scope after a settlement: one share of the loop on the path, and the
    usage added to `own` at the node. -/
theorem settle_getElem? {s : Session} {ledger : State} {x : Issued} {charge : Charge}
    {result : Settlement} (hm : Matched s) (hx : x ∈ s.outstanding)
    (hcall : settle s.ledger x.reservation charge = some (ledger, result)) :
    ledger.links = s.ledger.links ∧
    result.charged = charge.charged x.reservation.tokens ∧
    ∀ {i : NodeId} {n : Scope}, ledger.scopes[i]? = some n →
      ∃ m m', s.ledger.scopes[i]? = some m ∧
        ((Forest.Below s.ledger.links i x.node ∧
          settleScope x.reservation.tokens (charge.charged x.reservation.tokens)
            (charge.recorded x.reservation.tokens) m = some m') ∨
          (¬ Forest.Below s.ledger.links i x.node ∧ m' = m)) ∧
        n = { m' with own := m'.own +
          if x.node = i then charge.recorded x.reservation.tokens else 0 } := by
  obtain ⟨a, ids, scopes, n₀, ha, hids, hloop, hn₀, hscopes, -, -, -, -, -, hcharged, -⟩ :=
    settle_ok hcall
  obtain rfl : x.attempt = a := by
    rw [hm.find?_attempt hx] at ha; exact Option.some.inj ha
  have hlinks : ledger.links = s.ledger.links := links_settle hloop hn₀ (by rfl) hscopes
  simp only [Issued.attempt] at hids hloop hn₀ hscopes hcharged
  refine ⟨hlinks, hcharged, fun {i n} hn => ?_⟩
  have hmid : ∀ {m' : Scope}, scopes[i]? = some m' → ∃ m, s.ledger.scopes[i]? = some m ∧
      ((Forest.Below s.ledger.links i x.node ∧
        settleScope x.reservation.tokens (charge.charged x.reservation.tokens)
          (charge.recorded x.reservation.tokens) m = some m') ∨
        (¬ Forest.Below s.ledger.links i x.node ∧ m' = m)) := by
    intro m' hm'
    rw [updatePath_getElem? (hm.tree.path_nodup hids) hloop] at hm'
    by_cases hi : i ∈ ids
    · rw [if_pos hi] at hm'
      obtain ⟨m, hmi, hf⟩ := Option.bind_eq_some_iff.mp hm'
      exact ⟨m, hmi, Or.inl ⟨(mem_path hids i).mp hi, hf⟩⟩
    · rw [if_neg hi] at hm'
      exact ⟨m', hm', Or.inr ⟨fun hb => hi ((mem_path hids i).mpr hb), rfl⟩⟩
  by_cases hi : x.node = i
  · subst hi
    obtain ⟨m, hmi, hf⟩ := hmid hn₀
    have hlt : x.node < scopes.length := (List.getElem?_eq_some_iff.mp hn₀).1
    refine ⟨m, n₀, hmi, hf, ?_⟩
    rw [hscopes] at hn
    rw [if_pos rfl]
    exact (Option.some.inj ((List.getElem?_set_self hlt).symm.trans hn)).symm
  · rw [hscopes, List.getElem?_set_ne hi] at hn
    obtain ⟨m, hmi, hf⟩ := hmid hn
    exact ⟨m, n, hmi, hf, by rw [if_neg hi, add_zero]⟩

/-- Settlement: tokens leave `reserved`, the charge and the usage are added,
    on the path, where the attempt counts. -/
theorem counted_settle {s t : Session} {x : Issued} {charge : Charge} {result : Settlement}
    (hm : Matched s) (h : Counted s) (hx : x ∈ s.outstanding)
    (hcall : settle s.ledger x.reservation charge = some (t.ledger, result))
    (hout : t.outstanding = s.outstanding.erase x)
    (hset : t.settled = s.settled ++
      [⟨x, result.charged, charge.recorded x.reservation.tokens⟩]) : Counted t := by
  obtain ⟨hlinks, hcharged, hcases⟩ := settle_getElem? hm hx hcall
  constructor <;> intro i n hn <;> obtain ⟨m, m', hmi, hf, rfl⟩ := hcases hn
  · unfold Session.reservedBelow
    have hbefore := h.reserved hmi
    unfold Session.reservedBelow at hbefore
    rw [Forest.total_erase hx] at hbefore
    rw [hlinks, hout]
    rcases hf with ⟨hb, hf⟩ | ⟨hb, rfl⟩
    · rw [if_pos hb] at hbefore
      obtain ⟨_, rfl⟩ := settleScope_eq_some.mp hf
      simp only
      omega
    · rw [if_neg hb] at hbefore
      simpa using hbefore
  · unfold Session.chargedBelow
    rw [hlinks, hset, Forest.total_snoc]
    rcases hf with ⟨hb, hf⟩ | ⟨hb, rfl⟩
    · obtain ⟨_, rfl⟩ := settleScope_eq_some.mp hf
      rw [if_pos hb, hcharged]
      exact congrArg (· + charge.charged x.reservation.tokens) (h.used hmi)
    · rw [if_neg hb]
      have hsum := h.used hmi
      exact hsum
  · unfold Session.usageBelow
    rw [hlinks, hset, Forest.total_snoc]
    rcases hf with ⟨hb, hf⟩ | ⟨hb, rfl⟩
    · obtain ⟨_, rfl⟩ := settleScope_eq_some.mp hf
      rw [if_pos hb]
      exact congrArg (· + charge.recorded x.reservation.tokens) (h.usage hmi)
    · rw [if_neg hb, add_zero]
      have hsum := h.usage hmi
      exact hsum
  · unfold Session.usageAt
    have hown : m'.own = m.own := by
      rcases hf with ⟨_, hf⟩ | ⟨_, rfl⟩
      · obtain ⟨_, rfl⟩ := settleScope_eq_some.mp hf; rfl
      · rfl
    rw [hset, Forest.ownTotal_snoc]
    show m'.own + _ = _
    rw [hown, h.own hmi]
    rfl

theorem counted_step {limits : Limits} {s t : Session} {l : Call} (hm : Matched s)
    (h : Counted s) (hstep : step limits s l = some t) : Counted t := by
  rcases step_cases hstep with
    ⟨parent, agent, limit, id, -, hcall, hout, hset⟩ | ⟨node, e, m, r, -, hcall, hout, hset⟩ |
    ⟨x, charge, result, -, hx, hcall, hout, hset⟩ | ⟨haccount, -, -, hout, hset⟩
  · obtain ⟨p, ids, -, -, -, -, -, -, -, hscopes, -⟩ := admitChild_ok hcall
    exact counted_admitChild hm h hscopes ⟨_, _, _, rfl⟩ hout hset
  · obtain ⟨n, ids, -, -, -, hids, -, -, -, -, -, -, hloop, -⟩ := reserve_ok hcall
    exact counted_reserve hm h hids hloop hout hset
  · exact counted_settle hm h hx hcall hout hset
  · have hlinks := links_of_account haccount
    have hcases : ∀ {i : NodeId} {n : Scope}, t.ledger.scopes[i]? = some n →
        ∃ m, s.ledger.scopes[i]? = some m ∧ n.account = m.account := by
      intro i n hn
      have hi := haccount i
      rw [hn, Option.map_some, eq_comm, Option.map_eq_some_iff] at hi
      obtain ⟨m, hmi, heq⟩ := hi
      exact ⟨m, hmi, heq.symm⟩
    constructor <;> intro i n hn <;> obtain ⟨m, hmi, heq⟩ := hcases hn <;>
      simp only [Scope.account, Prod.mk.injEq] at heq
    · rw [heq.2.1, h.reserved hmi, Session.reservedBelow, Session.reservedBelow, hlinks, hout]
    · rw [heq.2.1, h.used hmi, Session.chargedBelow, Session.chargedBelow, hlinks, hset]
    · rw [heq.2.2.1, h.usage hmi, Session.usageBelow, Session.usageBelow, hlinks, hset]
    · rw [heq.2.2.2, h.own hmi, Session.usageAt, Session.usageAt, hset]

theorem counted_of_reachable {limits : Limits} {s : Session}
    (h : (sessions limits).Reachable s) : Counted s :=
  LTS.System.invariant_with (fun _ => matched_of_reachable) (counted_init limits)
    (fun _ _ _ hm _ hs _ hstep => counted_step hm hs hstep) s h

/-! ### Consequences -/

/-- The recorded usage of a settled attempt adds up to its charge. -/
def Measured (s : Session) : Prop := ∀ x ∈ s.settled, x.usage.total = x.charged

theorem measured_step {limits : Limits} {s t : Session} {l : Call} (hm : Matched s)
    (h : Measured s) (hstep : step limits s l = some t) : Measured t := by
  rcases step_cases hstep with
    ⟨_, _, _, _, -, -, -, hset⟩ | ⟨_, _, _, _, -, -, -, hset⟩ |
    ⟨x, charge, result, -, hx, hcall, -, hset⟩ | ⟨-, -, -, -, hset⟩
  · unfold Measured; rw [hset]; exact h
  · unfold Measured; rw [hset]; exact h
  · unfold Measured
    rw [hset]
    intro y hy
    rcases List.mem_append.mp hy with hy | hy
    · exact h y hy
    · obtain rfl := List.mem_singleton.mp hy
      rw [(settle_getElem? hm hx hcall).2.1, Charge.total_recorded]
  · unfold Measured; rw [hset]; exact h

theorem measured_of_reachable {limits : Limits} {s : Session}
    (h : (sessions limits).Reachable s) : Measured s :=
  LTS.System.invariant_with (fun _ => matched_of_reachable) (by simp [Measured, sessions])
    (fun _ _ _ hm _ hs _ hstep => measured_step hm hs hstep) s h

/-- Subtree usages add up to subtree charges. -/
theorem total_usageBelow {s : Session} (h : Measured s) (i : NodeId) :
    (s.usageBelow i).total = s.chargedBelow i := by
  classical
  have key : ∀ xs : List Settled, (∀ x ∈ xs, x.usage.total = x.charged) →
      (Forest.total s.ledger.links (fun x : Settled => x.issued.node) Settled.usage xs i).total =
        Forest.total s.ledger.links (fun x : Settled => x.issued.node) Settled.charged xs i := by
    intro xs hxs
    induction xs with
    | nil => rfl
    | cons x xs ih =>
      obtain ⟨hx, hrest⟩ := List.forall_mem_cons.mp hxs
      rw [Forest.total_cons, Forest.total_cons, Usage.total_add, ih hrest]
      split
      · rw [hx]
      · rfl
  exact key s.settled h

/-- The settlement of a held reservation never panics. -/
theorem settle_isSome {s : Session} (hm : Matched s) (h : Counted s) {x : Issued}
    (hx : x ∈ s.outstanding) (charge : Charge) :
    ∃ r, settle s.ledger x.reservation charge = some r := by
  classical
  obtain ⟨ids, hids⟩ := hm.tree.path_isSome (hm.placed x hx)
  have hloop : (updatePath (settleScope x.reservation.tokens
      (charge.charged x.reservation.tokens) (charge.recorded x.reservation.tokens)) ids
      s.ledger.scopes).isSome := by
    refine updatePath_isSome (hm.tree.path_nodup hids) fun i hi => ?_
    have hb := (mem_path hids i).mp hi
    have hknown := links_isSome.mp (hb.known hm.tree.ordered (hm.placed x hx))
    obtain ⟨n, hn⟩ : ∃ n, s.ledger.scopes[i]? = some n := ⟨_, List.getElem?_eq_getElem hknown⟩
    have hsum := h.reserved hn
    unfold Session.reservedBelow at hsum
    rw [Forest.total_erase hx, if_pos hb] at hsum
    have hle : x.reservation.tokens ≤ n.budget.reserved := by omega
    rw [hn, Option.bind_some]
    exact Option.isSome_iff_exists.mpr ⟨_, settleScope_eq_some.mpr ⟨hle, rfl⟩⟩
  obtain ⟨scopes, hscopes⟩ := Option.isSome_iff_exists.mp hloop
  have hnode : ∃ n, scopes[x.node]? = some n := by
    have hin := (mem_path hids x.node).mpr (.refl _)
    have hknown := links_isSome.mp (hm.placed x hx)
    have hlen : (s.ledger.scopes[x.node]?).bind (settleScope x.reservation.tokens
        (charge.charged x.reservation.tokens) (charge.recorded x.reservation.tokens)) =
        scopes[x.node]? := by
      rw [updatePath_getElem? (hm.tree.path_nodup hids) hscopes, if_pos hin]
    have hb : Forest.Below s.ledger.links x.node x.node := .refl _
    have hsum := h.reserved (List.getElem?_eq_getElem hknown)
    unfold Session.reservedBelow at hsum
    rw [Forest.total_erase hx, if_pos hb] at hsum
    rw [← hlen, List.getElem?_eq_getElem hknown, Option.bind_some]
    exact ⟨_, settleScope_eq_some.mpr ⟨by omega, rfl⟩⟩
  obtain ⟨n, hn⟩ := hnode
  unfold settle
  simp only [hm.find?_attempt hx, Issued.attempt, hids, hscopes, hn]
  exact ⟨_, rfl⟩

/-! ### The conservation law -/

/-- The accounts of a ledger state against its history. -/
structure Conserved (s : Session) : Prop where
  /-- The attempt map holds exactly the unsettled reservations. -/
  attempts : s.ledger.attempts = s.outstanding.map Issued.attempt
  /-- `reserved` is the sum of the unsettled tokens of the subtree. -/
  reserved : ∀ {i : NodeId} {n : Scope}, s.ledger.scopes[i]? = some n →
    n.budget.reserved = s.reservedBelow i
  /-- `used` is the sum of the charges of the subtree. -/
  used : ∀ {i : NodeId} {n : Scope}, s.ledger.scopes[i]? = some n →
    n.budget.used = s.chargedBelow i
  /-- `usage` is the componentwise sum of the usages of the subtree. -/
  usage : ∀ {i : NodeId} {n : Scope}, s.ledger.scopes[i]? = some n →
    n.usage = s.usageBelow i
  usageTotal : ∀ {i : NodeId} {n : Scope}, s.ledger.scopes[i]? = some n →
    n.usage.total = n.budget.used
  /-- `own` is the sum over the scope's own attempts. -/
  own : ∀ {i : NodeId} {n : Scope}, s.ledger.scopes[i]? = some n → n.own = s.usageAt i
  children : ∀ {i : NodeId} {n : Scope}, s.ledger.scopes[i]? = some n →
    n.usage = n.own + ((s.ledger.children i).map s.ledger.subtreeUsage).sum
  /-- The subtraction in `settle` never underflows, nor does it panic otherwise. -/
  settles : ∀ x ∈ s.outstanding, ∀ charge, ∃ r, settle s.ledger x.reservation charge = some r
  parents : ∀ {i : NodeId} {n : Scope} {p : NodeId}, s.ledger.scopes[i]? = some n →
    n.parent = some p → p < i
  /-- The parent walk ends at the root. -/
  walk : ∀ i < s.ledger.scopes.length, ∃ ids, path s.ledger i = some ids ∧
    ids.getLast? = some 0

/-- Every sequence of calls conserves tokens, charges and usages. -/
theorem ledger_conservation (limits : Limits) {s : Session}
    (h : (sessions limits).Reachable s) : Conserved s := by
  have hm := matched_of_reachable h
  have hc := counted_of_reachable h
  refine ⟨hm.attempts, hc.reserved, hc.used, hc.usage, ?_, hc.own, ?_,
    fun x hx charge => settle_isSome hm hc hx charge, ?_, ?_⟩
  · intro i n hn
    rw [hc.usage hn, hc.used hn, total_usageBelow (measured_of_reachable h)]
  · intro i n hn
    have hchild : ∀ c ∈ s.ledger.children i, s.ledger.subtreeUsage c = s.usageBelow c := by
      intro c hcm
      have hlt : c < s.ledger.scopes.length := by
        have hlink : s.ledger.links c = some (some i) := mem_children.mp hcm
        exact links_isSome.mp (by simp [hlink])
      have hscope := List.getElem?_eq_getElem hlt
      rw [← hc.usage hscope]
      simp [State.subtreeUsage, Ledger.usage, hscope]
    rw [List.map_congr_left hchild, hc.usage hn, hc.own hn]
    exact Forest.total_eq_own_add_children hm.tree.ordered _ _
      (List.nodup_range.filter _) fun _ => mem_children
  · intro i n p hn hp
    exact (hm.tree.ordered i p (by rw [links_eq_some hn, hp])).1
  · intro i hi
    obtain ⟨ids, hids⟩ := hm.tree.path_isSome (links_isSome.mpr hi)
    obtain ⟨r, hlast, hroot⟩ := Forest.climb_getLast hids
    exact ⟨ids, hids, by rw [hlast, hm.tree.root r hroot]⟩

/-- The subtree of the root holds every settlement, so its usage is what all
    scopes used themselves. -/
theorem usage_root {limits : Limits} {s : Session} (h : (sessions limits).Reachable s)
    {n : Scope} (hn : s.ledger.scopes[0]? = some n) :
    n.usage = (s.ledger.scopes.map Scope.own).sum := by
  have hm := matched_of_reachable h
  have hconserved := ledger_conservation limits h
  have hbelow : ∀ x ∈ s.settled, Forest.Below s.ledger.links 0 x.issued.node := by
    intro x hx
    obtain ⟨ids, hids, hlast⟩ :=
      hconserved.walk x.issued.node (links_isSome.mp (hm.settledPlaced x hx))
    exact (mem_path hids 0).mp (List.mem_of_getLast? hlast)
  have hown : s.ledger.scopes.map Scope.own =
      (List.range s.ledger.scopes.length).map s.usageAt := by
    apply List.ext_getElem
    · rw [List.length_map, List.length_map, List.length_range]
    · intro i hi _
      rw [List.length_map] at hi
      rw [List.getElem_map, List.getElem_map, List.getElem_range]
      exact hconserved.own (List.getElem?_eq_getElem hi)
  have hplaced : ∀ x ∈ s.settled, x.issued.node < s.ledger.scopes.length :=
    fun x hx => links_isSome.mp (hm.settledPlaced x hx)
  rw [hconserved.usage hn, Session.usageBelow, Forest.total_all hbelow, hown]
  exact (Forest.sum_ownTotal hplaced).symm

/-- A root and one child, two reservations below the root, one of them settled
    above its estimate. -/
def settledCalls : List Call :=
  [.admitChild 0 true (some 50000), .reserve 1 100 5000, .reserve 0 10 8000,
    .settle ⟨1, ⟨0, 5100, 5000⟩⟩ (.usage ⟨120, 5000, 0, 7⟩), .shutdown 1]

theorem ledger_conservation_settled : ∃ s,
    (sessions .default).run (sessions .default).init settledCalls = some s ∧
      s.outstanding = [⟨0, ⟨1, 8010, 8000⟩⟩] ∧ s.settled.map Settled.charged = [5127] ∧
      Conserved s := by
  have hrun : ∃ s, (sessions .default).run (sessions .default).init settledCalls = some s ∧
      s.outstanding = [⟨0, ⟨1, 8010, 8000⟩⟩] ∧ s.settled.map Settled.charged = [5127] :=
    ⟨_, rfl, rfl, rfl⟩
  obtain ⟨s, hs, hout, hset⟩ := hrun
  exact ⟨s, hs, hout, hset, ledger_conservation .default (LTS.System.reachable_of_run hs)⟩

end Kyora.Ledger
