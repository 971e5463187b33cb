import Kyora.Ledger.Basic

/-! # What the ledger operations do

  One lemma per operation says everything a successful or refused call does;
  the invariants of the ledger are derived from these and never unfold the
  operations again.
-/

namespace Kyora.Ledger

/-! ### Loops over a path -/

theorem updatePath_cons {f : Scope → Option Scope} {id : NodeId} {rest : List NodeId}
    {scopes scopes' : List Scope} :
    updatePath f (id :: rest) scopes = some scopes' ↔
      ∃ n n', scopes[id]? = some n ∧ f n = some n' ∧
        updatePath f rest (scopes.set id n') = some scopes' := by
  constructor
  · intro h
    unfold updatePath at h
    split at h
    · cases h
    · next n hn =>
      split at h
      · cases h
      · next n' hn' => exact ⟨n, n', hn, hn', h⟩
  · rintro ⟨n, n', hn, hn', h⟩
    simp only [updatePath, hn, hn', h]

/-- The loop applies the update once to every scope of the path and to no
    other. -/
theorem updatePath_getElem? {f : Scope → Option Scope} {ids : List NodeId}
    {scopes scopes' : List Scope} (hnodup : ids.Nodup)
    (h : updatePath f ids scopes = some scopes') (i : NodeId) :
    scopes'[i]? = if i ∈ ids then (scopes[i]?).bind f else scopes[i]? := by
  induction ids generalizing scopes with
  | nil =>
    simp only [updatePath, Option.some.injEq] at h
    simp [h]
  | cons id rest ih =>
    obtain ⟨n, n', hn, hn', hrest⟩ := updatePath_cons.mp h
    obtain ⟨hnotin, hnodup'⟩ := List.nodup_cons.mp hnodup
    rw [ih hnodup' hrest]
    by_cases hid : i = id
    · subst hid
      have hlt : i < scopes.length := (List.getElem?_eq_some_iff.mp hn).1
      simp [hnotin, hn, hn', List.getElem?_set_self hlt]
    · rw [List.getElem?_set_ne (Ne.symm hid)]
      simp [hid]

/-- The loop succeeds when the update does on every scope of the path. -/
theorem updatePath_isSome {f : Scope → Option Scope} {ids : List NodeId}
    {scopes : List Scope} (hnodup : ids.Nodup)
    (h : ∀ i ∈ ids, ((scopes[i]?).bind f).isSome) : (updatePath f ids scopes).isSome := by
  induction ids generalizing scopes with
  | nil => rfl
  | cons id rest ih =>
    obtain ⟨n', hn'⟩ := Option.isSome_iff_exists.mp (h id List.mem_cons_self)
    obtain ⟨n, hn, hf⟩ := Option.bind_eq_some_iff.mp hn'
    obtain ⟨hnotin, hnodup'⟩ := List.nodup_cons.mp hnodup
    simp only [updatePath, hn, hf]
    refine ih hnodup' fun i hi => ?_
    have hne : id ≠ i := fun heq => hnotin (heq ▸ hi)
    rw [List.getElem?_set_ne hne]
    exact h i (List.mem_cons_of_mem id hi)

/-- An update that keeps every parent keeps the links. -/
theorem links_updatePath {f : Scope → Option Scope} {ids : List NodeId} {s : State}
    {scopes' : List Scope} (hparent : ∀ n n', f n = some n' → n'.parent = n.parent)
    (h : updatePath f ids s.scopes = some scopes') :
    ({ s with scopes := scopes' } : State).links = s.links := by
  obtain ⟨scopes, _, _, _, _, _⟩ := s
  induction ids generalizing scopes with
  | nil =>
    simp only [updatePath, Option.some.injEq] at h
    subst h; rfl
  | cons id rest ih =>
    obtain ⟨n, n', hn, hn', hrest⟩ := updatePath_cons.mp h
    refine (ih _ hrest).trans (funext fun i => ?_)
    by_cases hid : i = id
    · subst hid
      have hlt : i < scopes.length := (List.getElem?_eq_some_iff.mp hn).1
      simp [State.links, hn, List.getElem?_set_self hlt, hparent n n' hn']
    · simp [State.links, List.getElem?_set_ne (Ne.symm hid)]

/-- Setting a scope to one with the same parent keeps the links. -/
theorem links_set {s : State} {id : NodeId} {n n' : Scope} (hn : s.scopes[id]? = some n)
    (hparent : n'.parent = n.parent) :
    (fun i => ((s.scopes.set id n')[i]?).map Scope.parent) = s.links := by
  funext i
  by_cases hid : i = id
  · subst hid
    have hlt : i < s.scopes.length := (List.getElem?_eq_some_iff.mp hn).1
    simp [State.links, hn, List.getElem?_set_self hlt, hparent]
  · simp [State.links, List.getElem?_set_ne (Ne.symm hid)]

/-! ### Admission -/

/-- An admitted child is a fresh scope appended below an open parent whose
    whole path has headroom. -/
theorem admitChild_ok {limits : Limits} {s t : State} {parent id : NodeId} {agent : Bool}
    {limit : Option Nat} (h : admitChild limits s parent agent limit = some (t, .ok id)) :
    ∃ p ids, s.scopes[parent]? = some p ∧ p.alive = true ∧ p.admissionClosed = false ∧
      exceededLimit limits s agent (p.depth + agent.toNat) = none ∧
      path s parent = some ids ∧ (∀ r ∈ headrooms s ids, r ≠ 0) ∧
      id = s.scopes.length ∧
      t.scopes = s.scopes ++ [freshScope (some parent) (p.depth + agent.toNat) agent
        (min (limit.getD limits.budgetTokens) p.budget.limit)] ∧
      t.attempts = s.attempts ∧ t.nextAttempt = s.nextAttempt ∧
      t.total = s.total + agent.toNat ∧ t.live = s.live + agent.toNat ∧
      t.llm = s.llm + (!agent).toNat := by
  unfold admitChild at h
  split at h
  · simp at h
  next p hp =>
  split at h
  · simp at h
  next hopen =>
  simp only at h
  split at h
  · simp at h
  next hlimit =>
  split at h
  · simp at h
  split at h
  · simp at h
  next ids hids =>
  split at h
  · simp at h
  next hroom =>
  split at h
  · simp at h
  have hroom' : ∀ r ∈ headrooms s ids, r ≠ 0 := by
    intro r hr hzero
    exact hroom (List.any_eq_true.mpr ⟨r, hr, by simp [hzero]⟩)
  have halive : p.alive = true ∧ p.admissionClosed = false := by
    simpa using hopen
  refine ⟨p, ids, hp, halive.1, halive.2, hlimit, hids, hroom', ?_⟩
  cases agent <;> simp only [Bool.false_eq_true, if_true, if_false, Option.some.injEq,
    Prod.mk.injEq, Except.ok.injEq] at h <;> obtain ⟨rfl, rfl⟩ := h <;> simp

/-- A refused admission changes nothing. -/
theorem admitChild_error {limits : Limits} {s t : State} {parent : NodeId} {agent : Bool}
    {limit : Option Nat} {e : RecursionError}
    (h : admitChild limits s parent agent limit = some (t, .error e)) : t = s := by
  unfold admitChild at h
  simp only at h
  repeat' split at h
  all_goals simp_all only [Option.some.injEq, Prod.mk.injEq, reduceCtorEq, and_false]

/-! ### Reservation -/

/-- The scope update of a reservation. -/
def addReserved (tokens : Nat) (n : Scope) : Scope :=
  { n with budget := { n.budget with reserved := n.budget.reserved + tokens } }

/-- A reservation fits the headroom of every scope of its path and is added
    to each of them. -/
theorem reserve_ok {s t : State} {node : NodeId} {promptEstimate requested : Nat}
    {r : Reservation} (h : reserve s node promptEstimate requested = some (t, .ok r)) :
    ∃ n ids, s.scopes[node]? = some n ∧ n.alive = true ∧ n.admissionClosed = false ∧
      path s node = some ids ∧ 0 < requested ∧
      (∀ room ∈ headrooms s ids, r.tokens ≤ room) ∧
      r.tokens = promptEstimate + r.maxTokens ∧ r.maxTokens ≤ requested ∧
      min minOutputTokens requested ≤ r.maxTokens ∧ r.id = s.nextAttempt ∧
      updatePath (fun n => some (addReserved r.tokens n)) ids s.scopes = some t.scopes ∧
      t.nextAttempt = s.nextAttempt + 1 ∧
      t.attempts = s.attempts ++ [⟨r.id, node, r.tokens⟩] ∧
      t.total = s.total ∧ t.live = s.live ∧ t.llm = s.llm := by
  unfold reserve at h
  split at h
  · simp at h
  next hreq =>
  split at h
  · simp at h
  next hopen =>
  split at h
  · simp at h
  next ids hids =>
  simp only at h
  split at h
  · simp at h
  next hfit =>
  split at h
  · simp at h
  next scopes hscopes =>
  simp only [Option.some.injEq, Prod.mk.injEq, Except.ok.injEq] at h
  obtain ⟨rfl, rfl⟩ := h
  have hnode : ∃ n, s.scopes[node]? = some n ∧ n.alive = true ∧ n.admissionClosed = false := by
    simpa [Option.any_eq_true] using hopen
  obtain ⟨n, hn, halive, hadm⟩ := hnode
  refine ⟨n, ids, hn, halive, hadm, hids, Nat.pos_of_ne_zero hreq, ?_, rfl,
    Nat.min_le_left _ _, ?_, rfl, hscopes, rfl, rfl, rfl, rfl, rfl⟩
  · intro room hroom
    have hle : (headrooms s ids).min?.getD 0 ≤ room := List.min?_getD_le_of_mem hroom
    simp only
    omega
  · simp only
    omega

/-- A refused reservation changes nothing. -/
theorem reserve_error {s t : State} {node : NodeId} {promptEstimate requested : Nat}
    {e : String} (h : reserve s node promptEstimate requested = some (t, .error e)) :
    t = s := by
  unfold reserve at h
  simp only at h
  repeat' split at h
  all_goals simp_all only [Option.some.injEq, Prod.mk.injEq, reduceCtorEq, and_false]

/-! ### Settlement -/

theorem settleScope_eq_some {tokens charged : Nat} {usage : Usage} {n n' : Scope} :
    settleScope tokens charged usage n = some n' ↔
      tokens ≤ n.budget.reserved ∧
      n' = { n with
        budget := { n.budget with
          used := n.budget.used + charged
          reserved := n.budget.reserved - tokens
          closed := n.budget.closed || decide
            (n.budget.used + charged + (n.budget.reserved - tokens) > n.budget.limit) }
        usage := n.usage + usage } := by
  unfold settleScope
  constructor
  · intro h
    split at h
    · cases h
    · next r hr =>
      obtain ⟨hle, rfl⟩ := checkedSub_eq_some.mp hr
      exact ⟨hle, (Option.some.inj h).symm⟩
  · rintro ⟨hle, rfl⟩
    rw [checkedSub_of_le hle]

/-- A settlement consumes one attempt, moves it from reserved to used on its
    path and records the usage at its node. -/
theorem settle_ok {s t : State} {r : Reservation} {charge : Charge} {result : Settlement}
    (h : settle s r charge = some (t, result)) :
    ∃ a ids scopes n, s.attempts.find? (·.id == r.id) = some a ∧
      path s a.node = some ids ∧
      updatePath (settleScope a.tokens (charge.charged a.tokens) (charge.recorded a.tokens))
        ids s.scopes = some scopes ∧
      scopes[a.node]? = some n ∧
      t.scopes = scopes.set a.node { n with own := n.own + charge.recorded a.tokens } ∧
      t.attempts = s.attempts.eraseP (·.id == r.id) ∧
      t.nextAttempt = s.nextAttempt ∧ t.total = s.total ∧ t.live = s.live ∧
      t.llm = s.llm ∧
      result.charged = charge.charged a.tokens ∧
      result.excess = charge.charged a.tokens - a.tokens := by
  unfold settle at h
  split at h
  · cases h
  next a ha =>
  simp only at h
  split at h
  · cases h
  next ids hids =>
  split at h
  · cases h
  next scopes hscopes =>
  split at h
  · cases h
  next n hn =>
  simp only [Option.some.injEq, Prod.mk.injEq] at h
  obtain ⟨rfl, rfl⟩ := h
  exact ⟨a, ids, scopes, n, ha, hids, hscopes, hn, rfl, rfl, rfl, rfl, rfl, rfl, rfl, rfl⟩

/-! ### Closing -/

/-- What admission and shutdown never touch: parent and accounts. -/
def Scope.account (n : Scope) : Option NodeId × BudgetSnapshot × Usage × Usage :=
  (n.parent, n.budget, n.usage, n.own)

/-- Both closing operations only touch a scope's flags and the live count. -/
theorem account_set {s : State} {node : NodeId} {n n' : Scope}
    (hn : s.scopes[node]? = some n) (haccount : n'.account = n.account) (i : NodeId) :
    ((s.scopes.set node n')[i]?).map Scope.account = (s.scopes[i]?).map Scope.account := by
  by_cases hid : i = node
  · subst hid
    have hlt : i < s.scopes.length := (List.getElem?_eq_some_iff.mp hn).1
    simp [hn, List.getElem?_set_self hlt, haccount]
  · rw [List.getElem?_set_ne (Ne.symm hid)]

theorem closeAdmission_ok {s t : State} {node : NodeId} (h : closeAdmission s node = some t) :
    (∀ i : NodeId, (t.scopes[i]?).map Scope.account = (s.scopes[i]?).map Scope.account) ∧
      t.attempts = s.attempts ∧ t.nextAttempt = s.nextAttempt := by
  unfold closeAdmission at h
  split at h
  · cases h
  next n hn =>
  obtain rfl := Option.some.inj h
  exact ⟨account_set hn rfl, rfl, rfl⟩

theorem shutdown_ok {s t : State} {node : NodeId} (h : shutdown s node = some t) :
    (∀ i : NodeId, (t.scopes[i]?).map Scope.account = (s.scopes[i]?).map Scope.account) ∧
      t.attempts = s.attempts ∧ t.nextAttempt = s.nextAttempt := by
  unfold shutdown at h
  split at h
  · cases h
  next n hn =>
  split at h
  · split at h
    · split at h
      · cases h
      · obtain rfl := Option.some.inj h
        exact ⟨account_set hn rfl, rfl, rfl⟩
    · obtain rfl := Option.some.inj h
      exact ⟨account_set hn rfl, rfl, rfl⟩
  · obtain rfl := Option.some.inj h
    exact ⟨fun _ => rfl, rfl, rfl⟩

end Kyora.Ledger
