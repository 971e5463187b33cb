import Kyora.Framework.Machine
import Kyora.Ledger.Budget

/-! # The ledger in machine arithmetic

  The ledger's counters are 64-bit numbers. `reserve` and `settle` are given
  here with the operators the code uses: plain additions, which panic in a
  debug build and wrap in a release build, next to saturating comparisons. A
  session of these operations goes on after an addition has wrapped. Attempt
  ids and node ids only count calls and stay exact.
-/

namespace Kyora.Ledger.Word

open Machine

/-! ### Usage -/

/-- `Usage::total`. -/
def total (m : Mode) (u : Usage) : Option Nat := do
  let sum ← m.add 64 u.inputTokens u.outputTokens
  let sum ← m.add 64 sum u.cacheCreationInputTokens
  m.add 64 sum u.cacheReadInputTokens

/-- `AddAssign` of usages. -/
def addAssign (m : Mode) (a b : Usage) : Option Usage := do
  let inputTokens ← m.add 64 a.inputTokens b.inputTokens
  let outputTokens ← m.add 64 a.outputTokens b.outputTokens
  let cacheCreationInputTokens ←
    m.add 64 a.cacheCreationInputTokens b.cacheCreationInputTokens
  let cacheReadInputTokens ← m.add 64 a.cacheReadInputTokens b.cacheReadInputTokens
  return { inputTokens, outputTokens, cacheCreationInputTokens, cacheReadInputTokens }

/-! ### Operations -/

/-- Remaining dispatch headroom, zero for closed scopes. -/
def remaining (b : BudgetSnapshot) : Nat :=
  if b.closed then 0 else b.limit - saturatingAdd 64 b.used b.reserved

/-- Remaining headroom of each scope of a path. -/
def headrooms (s : State) (ids : List NodeId) : List Nat :=
  ids.filterMap fun id => (s.scopes[id]?).map fun n => remaining n.budget

/-- One scope's share of a reservation. -/
def reserveScope (m : Mode) (tokens : Nat) (n : Scope) : Option Scope := do
  let reserved ← m.add 64 n.budget.reserved tokens
  return { n with budget := { n.budget with reserved } }

/-- Reserves on every ancestor atomically. -/
def reserve (m : Mode) (s : State) (node : NodeId) (promptEstimate requested : Nat) :
    Option (State × Except String Reservation) :=
  if requested = 0 then some (s, .error "max_tokens must be positive")
  else if !((s.scopes[node]?).any fun n => n.alive && !n.admissionClosed) then
    some (s, .error "node is shut down")
  else
    match path s node with
    | none => none
    | some ids =>
      let headroom := (headrooms s ids).min?.getD 0
      -- `saturating_sub`
      let available := headroom - promptEstimate
      let cap := truncate 32 (min requested available)
      if cap < min minOutputTokens requested ∨ headroom < promptEstimate then
        some (s, .error "budget exhausted")
      else
        match m.add 64 promptEstimate cap with
        | none => none
        | some tokens =>
          match updatePath (reserveScope m tokens) ids s.scopes with
          | none => none
          | some scopes =>
            let id := s.nextAttempt
            some ({ s with
                scopes
                nextAttempt := id + 1
                attempts := s.attempts ++ [⟨id, node, tokens⟩] },
              .ok { id, tokens, maxTokens := cap })

/-- The amount charged for an attempt that reserved `tokens`. -/
def charged (m : Mode) (tokens : Nat) : Charge → Option Nat
  | .usage u => total m u
  | .failed .zero => some 0
  | .failed .reserved => some tokens

/-- One scope's share of a settlement. -/
def settleScope (m : Mode) (tokens charged : Nat) (usage : Usage) (n : Scope) :
    Option Scope := do
  let reserved ← m.sub 64 n.budget.reserved tokens
  let used ← m.add 64 n.budget.used charged
  let usage ← addAssign m n.usage usage
  return { n with
    budget := { n.budget with
      used, reserved
      closed := n.budget.closed || decide (saturatingAdd 64 used reserved > n.budget.limit) }
    usage }

/-- Settles once and closes any scope whose used plus reserved exceeds its
    limit. -/
def settle (m : Mode) (s : State) (reservation : Reservation) (charge : Charge) :
    Option (State × Settlement) :=
  match s.attempts.find? (·.id == reservation.id) with
  | none => none
  | some a =>
    match charged m a.tokens charge, path s a.node with
    | some charged, some ids =>
      let usage := charge.recorded a.tokens
      match updatePath (settleScope m a.tokens charged usage) ids s.scopes with
      | none => none
      | some scopes =>
        match scopes[a.node]? with
        | none => none
        | some n =>
          match addAssign m n.own usage with
          | none => none
          | some own =>
            some ({ s with
                scopes := scopes.set a.node { n with own }
                attempts := s.attempts.eraseP (·.id == reservation.id) },
              { charged, excess := charged - a.tokens })
    | _, _ => none

/-! ### Sessions -/

/-- Every counter fits 64 bits. -/
def usageFits (u : Usage) : Bool :=
  u.inputTokens < 2 ^ 64 && u.outputTokens < 2 ^ 64 &&
    u.cacheCreationInputTokens < 2 ^ 64 && u.cacheReadInputTokens < 2 ^ 64

/-- The numbers of a call are of their types. -/
def typed : Call → Bool
  | .reserve _ promptEstimate requested => promptEstimate < 2 ^ 64 && requested < 2 ^ 32
  | .settle _ (.usage u) => usageFits u
  | _ => true

/-- The state after a call. `none` where the call panics, which poisons the
    mutex for every later call. -/
def step (m : Mode) (limits : Limits) (s : Session) (l : Call) : Option Session :=
  if !typed l then none
  else match l with
  | .reserve node promptEstimate requested =>
    (reserve m s.ledger node promptEstimate requested).map (s.keep node)
  | .settle x charge =>
    if x ∈ s.outstanding then
      (settle m s.ledger x.reservation charge).map fun r =>
        { ledger := r.1
          outstanding := s.outstanding.erase x
          settled := s.settled ++
            [⟨x, r.2.charged, charge.recorded x.reservation.tokens⟩] }
    else none
  -- Admission only compares, and the closing operations count nothing.
  | l => Ledger.step limits s l

/-- All sequences of calls in one build. -/
def sessions (m : Mode) (limits : Limits) : LTS.System Session Call where
  init := (Ledger.sessions limits).init
  step := step m limits

/-! ### Reservations are exact -/

/-- What no wrapped counter spoils: the scopes form a tree, and limits are
    64-bit numbers that never change. -/
structure Shape (s : State) : Prop where
  tree : Tree s
  limit : ∀ {i : NodeId} {n : Scope}, s.scopes[i]? = some n → n.budget.limit < 2 ^ 64

/-- Below a 64-bit limit the saturated sum leaves the same headroom. -/
theorem remaining_eq {b : BudgetSnapshot} (h : b.limit < 2 ^ 64) : remaining b = b.remaining := by
  unfold remaining BudgetSnapshot.remaining saturatingAdd
  split
  · rfl
  · omega

theorem remaining_le_limit {b : BudgetSnapshot} : b.remaining ≤ b.limit := by
  unfold BudgetSnapshot.remaining
  split <;> omega

/-- What fits the headroom is added without overflow. -/
theorem reserveScope_eq (m : Mode) {tokens : Nat} {n : Scope} (hlimit : n.budget.limit < 2 ^ 64)
    (hpos : 0 < tokens) (h : tokens ≤ n.budget.remaining) :
    reserveScope m tokens n = some (addReserved tokens n) := by
  have hsum : n.budget.reserved + tokens < 2 ^ 64 := by
    unfold BudgetSnapshot.remaining at h
    split at h <;> omega
  unfold reserveScope
  rw [Mode.add_of_lt hsum]
  rfl

theorem headrooms_eq {s : State} (h : Shape s) (ids : List NodeId) :
    headrooms s ids = Ledger.headrooms s ids := by
  unfold headrooms Ledger.headrooms
  refine List.filterMap_congr fun i _ => ?_
  cases hn : s.scopes[i]? with
  | none => rfl
  | some n => simp [remaining_eq (h.limit hn)]

/-- A loop only depends on what the update does to the scopes of the path. -/
theorem updatePath_congr {f g : Scope → Option Scope} {ids : List NodeId} {scopes : List Scope}
    (hnodup : ids.Nodup) (h : ∀ i ∈ ids, ∀ n, scopes[i]? = some n → f n = g n) :
    updatePath f ids scopes = updatePath g ids scopes := by
  induction ids generalizing scopes with
  | nil => rfl
  | cons id rest ih =>
    obtain ⟨hnotin, hnodup'⟩ := List.nodup_cons.mp hnodup
    rw [updatePath, updatePath]
    cases hn : scopes[id]? with
    | none => rfl
    | some n =>
      simp only [h id List.mem_cons_self n hn]
      cases hg : g n with
      | none => rfl
      | some n' =>
        refine ih hnodup' fun i hi n₁ hn₁ => ?_
        have hne : id ≠ i := fun heq => hnotin (heq ▸ hi)
        rw [List.getElem?_set_ne hne] at hn₁
        exact h i (List.mem_cons_of_mem id hi) n₁ hn₁

/-- In every state with 64-bit limits, wrapped counters or not, reserving
    computes exactly. -/
theorem reserve_eq (m : Mode) {s : State} (h : Shape s) {node : NodeId} {prompt requested : Nat}
    (hrequested : requested < 2 ^ 32) :
    reserve m s node prompt requested = Ledger.reserve s node prompt requested := by
  unfold reserve Ledger.reserve
  by_cases hzero : requested = 0
  · rw [if_pos hzero, if_pos hzero]
  rw [if_neg hzero, if_neg hzero]
  cases hopen : (s.scopes[node]?).any fun n => n.alive && !n.admissionClosed with
  | false => rfl
  | true =>
    cases hids : path s node with
    | none => rfl
    | some ids =>
      have hroom : ∀ i ∈ ids, ∀ n, s.scopes[i]? = some n →
          (Ledger.headrooms s ids).min?.getD 0 ≤ n.budget.remaining := fun i hi n hn =>
        List.min?_getD_le_of_mem (remaining_mem_headrooms hi hn)
      obtain ⟨n₀, hn₀, -⟩ := (Option.any_eq_true _ _).mp hopen
      have hnode := hroom node ((mem_path hids node).mpr (.refl node)) n₀ hn₀
      have hcap : truncate 32 (min requested ((Ledger.headrooms s ids).min?.getD 0 - prompt)) =
          min requested ((Ledger.headrooms s ids).min?.getD 0 - prompt) :=
        truncate_of_lt (by omega)
      simp only [headrooms_eq h, hcap]
      generalize (Ledger.headrooms s ids).min?.getD 0 = headroom at hroom hnode ⊢
      by_cases hrefused : min requested (headroom - prompt) < min minOutputTokens requested ∨
          headroom < prompt
      · simp only [if_pos hrefused]
      · have hpos : 0 < prompt + min requested (headroom - prompt) := by
          have hfloor : 0 < min minOutputTokens requested :=
            Nat.lt_min.mpr ⟨by decide, Nat.pos_of_ne_zero hzero⟩
          omega
        have hfits : prompt + min requested (headroom - prompt) ≤ headroom := by omega
        have hlimit := h.limit hn₀
        have hremaining : n₀.budget.remaining ≤ n₀.budget.limit := remaining_le_limit
        have hsum : m.add 64 prompt (min requested (headroom - prompt)) =
            some (prompt + min requested (headroom - prompt)) := Mode.add_of_lt (by omega)
        have hloop : updatePath (reserveScope m (prompt + min requested (headroom - prompt))) ids
              s.scopes =
            updatePath (fun n => some (addReserved (prompt + min requested (headroom - prompt)) n))
              ids s.scopes := by
          refine updatePath_congr (h.tree.path_nodup hids) fun i hi n hn => ?_
          exact reserveScope_eq m (h.limit hn) hpos (hfits.trans (hroom i hi n hn))
        simp only [if_neg hrefused, hsum, hloop]
        rfl

/-! ### The shape of every session -/

/-- What a loop keeps of each scope it keeps of the list. -/
theorem map_updatePath {β : Type} {g : Scope → β} {f : Scope → Option Scope} {ids : List NodeId}
    {scopes scopes' : List Scope} (hf : ∀ n n', f n = some n' → g n' = g n)
    (h : updatePath f ids scopes = some scopes') (i : NodeId) :
    (scopes'[i]?).map g = (scopes[i]?).map g := by
  induction ids generalizing scopes with
  | nil =>
    obtain rfl := Option.some.inj h
    rfl
  | cons id rest ih =>
    obtain ⟨n, n', hn, hn', hrest⟩ := updatePath_cons.mp h
    rw [ih hrest]
    by_cases hid : id = i
    · subst hid
      have hlt : id < scopes.length := (List.getElem?_eq_some_iff.mp hn).1
      simp [hn, List.getElem?_set_self hlt, hf n n' hn']
    · rw [List.getElem?_set_ne hid]

/-- The part of a scope that no call changes. -/
def fixed (n : Scope) : Option NodeId × Nat := (n.parent, n.budget.limit)

theorem Shape.of_fixed {s t : State} (h : Shape s)
    (hfixed : ∀ i : NodeId, (t.scopes[i]?).map fixed = (s.scopes[i]?).map fixed) : Shape t := by
  refine ⟨h.tree.of_links (funext fun i => ?_), fun {i n} hn => ?_⟩
  · have hi := congrArg (Option.map Prod.fst) (hfixed i)
    simpa [State.links, Option.map_map, fixed, Function.comp_def] using hi
  · have hi := hfixed i
    rw [hn, Option.map_some, eq_comm, Option.map_eq_some_iff] at hi
    obtain ⟨n', hn', heq⟩ := hi
    have hlimit := h.limit hn'
    simp only [fixed, Prod.mk.injEq] at heq
    omega

theorem fixed_settleScope {m : Mode} {tokens charged : Nat} {usage : Usage} {n n' : Scope}
    (h : settleScope m tokens charged usage n = some n') : fixed n' = fixed n := by
  simp only [settleScope, Option.bind_eq_bind, Option.bind_eq_some_iff] at h
  obtain ⟨reserved, -, used, -, usage', -, h⟩ := h
  obtain rfl := Option.some.inj h
  rfl

theorem settle_ok {m : Mode} {s t : State} {r : Reservation} {charge : Charge}
    {result : Settlement} (h : settle m s r charge = some (t, result)) :
    ∃ a c ids scopes n own, s.attempts.find? (·.id == r.id) = some a ∧
      charged m a.tokens charge = some c ∧ path s a.node = some ids ∧
      updatePath (settleScope m a.tokens c (charge.recorded a.tokens)) ids s.scopes =
        some scopes ∧
      scopes[a.node]? = some n ∧ addAssign m n.own (charge.recorded a.tokens) = some own ∧
      t = { s with
        scopes := scopes.set a.node { n with own }
        attempts := s.attempts.eraseP (·.id == r.id) } ∧
      result = ⟨c, c - a.tokens⟩ := by
  unfold settle at h
  split at h
  · cases h
  next a ha =>
  split at h
  next c ids hc hids =>
    simp only at h
    split at h
    · cases h
    next scopes hscopes =>
    split at h
    · cases h
    next n hn =>
    split at h
    · cases h
    next own hown =>
    obtain ⟨rfl, rfl⟩ := Prod.mk.inj (Option.some.inj h)
    exact ⟨a, c, ids, scopes, n, own, ha, hc, hids, hscopes, hn, hown, rfl, rfl⟩
  · cases h

theorem fixed_settle {m : Mode} {s t : State} {r : Reservation} {charge : Charge}
    {result : Settlement} (h : settle m s r charge = some (t, result)) (i : NodeId) :
    (t.scopes[i]?).map fixed = (s.scopes[i]?).map fixed := by
  obtain ⟨a, c, ids, scopes, n, own, -, -, -, hscopes, hn, -, rfl, -⟩ := settle_ok h
  rw [← map_updatePath (fun _ _ => fixed_settleScope) hscopes]
  by_cases hi : a.node = i
  · subst hi
    have hlt : a.node < scopes.length := (List.getElem?_eq_some_iff.mp hn).1
    simp only [List.getElem?_set_self hlt, hn, Option.map_some]
    rfl
  · simp only [List.getElem?_set_ne hi]

theorem shape_init {limits : Limits} (hlimits : limits.budgetTokens < 2 ^ 64) :
    Shape (initial limits) := by
  refine ⟨tree_initial limits, fun {i n} hn => ?_⟩
  match i with
  | 0 =>
    obtain rfl : freshScope none 0 true limits.budgetTokens = n := by simpa [initial] using hn
    exact hlimits
  | i + 1 => simp [initial] at hn

theorem shape_admitChild {limits : Limits} {s t : State} {parent id : NodeId} {agent : Bool}
    {limit : Option Nat} (h : Shape s)
    (hcall : admitChild limits s parent agent limit = some (t, .ok id)) : Shape t := by
  obtain ⟨p, ids, hp, -, -, -, -, -, -, hscopes, -⟩ := admitChild_ok hcall
  refine ⟨h.tree.snoc hscopes rfl (by simp [links_eq_some hp]), fun {i n} hn => ?_⟩
  rw [hscopes] at hn
  by_cases hi : i < s.scopes.length
  · rw [List.getElem?_append_left hi] at hn
    exact h.limit hn
  · rw [List.getElem?_append_right (Nat.le_of_not_lt hi)] at hn
    obtain rfl := List.mem_singleton.mp (List.mem_of_getElem? hn)
    exact Nat.lt_of_le_of_lt (Nat.min_le_right _ _) (h.limit hp)

theorem typed_of_step {m : Mode} {limits : Limits} {s t : Session} {l : Call}
    (h : step m limits s l = some t) : typed l = true := by
  unfold step at h
  cases htyped : typed l with
  | true => rfl
  | false =>
    rw [htyped] at h
    cases h

/-- Except for settlements, a call does what it does in exact arithmetic. -/
theorem step_eq {m : Mode} {limits : Limits} {s : Session} {l : Call} (h : Shape s.ledger)
    (htyped : typed l = true) (hsettle : ∀ x charge, l ≠ .settle x charge) :
    step m limits s l = Ledger.step limits s l := by
  unfold step
  simp only [htyped]
  cases l with
  | reserve node prompt requested =>
    have hrequested : requested < 2 ^ 32 := by
      simp only [typed, Bool.and_eq_true, decide_eq_true_eq] at htyped
      exact htyped.2
    simp only [reserve_eq m h hrequested]
    rfl
  | settle x charge => exact absurd rfl (hsettle x charge)
  | _ => rfl

/-- No call breaks the shape, in either build. -/
theorem shape_step {m : Mode} {limits : Limits} {s t : Session} {l : Call} (h : Shape s.ledger)
    (hstep : step m limits s l = some t) : Shape t.ledger := by
  have htyped := typed_of_step hstep
  by_cases hsettle : ∃ x charge, l = .settle x charge
  · obtain ⟨x, charge, rfl⟩ := hsettle
    simp only [step, htyped] at hstep
    split at hstep
    · cases hstep
    · split at hstep
      · obtain ⟨r, hr, rfl⟩ := Option.map_eq_some_iff.mp hstep
        exact h.of_fixed (fixed_settle hr)
      · cases hstep
  · rw [step_eq h htyped fun x charge heq => hsettle ⟨x, charge, heq⟩] at hstep
    rcases step_cases hstep with
      ⟨parent, agent, limit, id, -, hcall, -⟩ | ⟨node, e, k, r, -, hcall, -⟩ |
      ⟨x, charge, result, hl, -⟩ | ⟨haccount, -⟩
    · exact shape_admitChild h hcall
    · obtain ⟨_, ids, -, -, -, -, -, -, -, -, -, -, hloop, -⟩ := reserve_ok hcall
      refine h.of_fixed (map_updatePath (fun n n' hn => ?_) hloop)
      obtain rfl := Option.some.inj hn
      rfl
    · exact absurd ⟨x, charge, hl⟩ hsettle
    · refine h.of_fixed fun i => ?_
      have hi := congrArg (Option.map fun a : Option NodeId × BudgetSnapshot × Usage × Usage =>
        (a.1, a.2.1.limit)) (haccount i)
      rw [Option.map_map, Option.map_map] at hi
      exact hi

theorem shape_of_reachable {m : Mode} {limits : Limits} (hlimits : limits.budgetTokens < 2 ^ 64)
    {s : Session} (h : (sessions m limits).Reachable s) : Shape s.ledger :=
  LTS.System.invariant (P := fun s => Shape s.ledger) (shape_init hlimits)
    (fun _ _ _ hs _ hstep => shape_step hs hstep) s h

/-! ### What a reservation grants -/

/-- The node is alive with its admission open. -/
def Open (s : State) (node : NodeId) : Prop :=
  ∃ n, s.scopes[node]? = some n ∧ n.alive = true ∧ n.admissionClosed = false

/-- The cap is between the floor and what was requested, and fits with the
    prompt into every scope from the node to the root, none of them closed. -/
structure Fits (s : State) (node : NodeId) (prompt requested cap : Nat) : Prop where
  floor : min 4096 requested ≤ cap
  requested : cap ≤ requested
  room : ∀ i n, Forest.Below s.links i node → s.scopes[i]? = some n →
    n.budget.closed = false ∧ n.budget.used + n.budget.reserved + (prompt + cap) ≤ n.budget.limit

/-- The least headroom of a path holds what every scope of the path holds. -/
theorem headroom_iff {s : State} {node : NodeId} {ids : List NodeId} {n₀ : Scope}
    (hids : path s node = some ids) (hn₀ : s.scopes[node]? = some n₀) {tokens : Nat}
    (hpos : 0 < tokens) :
    tokens ≤ (Ledger.headrooms s ids).min?.getD 0 ↔
      ∀ i n, Forest.Below s.links i node → s.scopes[i]? = some n →
        n.budget.closed = false ∧ n.budget.used + n.budget.reserved + tokens ≤ n.budget.limit := by
  have hroom : ∀ n : Scope, tokens ≤ n.budget.remaining ↔ n.budget.closed = false ∧
      n.budget.used + n.budget.reserved + tokens ≤ n.budget.limit := by
    intro n
    unfold BudgetSnapshot.remaining
    cases n.budget.closed with
    | true =>
      simp only [if_true, Bool.true_eq_false, false_and, iff_false]
      omega
    | false =>
      simp only [Bool.false_eq_true, if_false, true_and]
      omega
  constructor
  · intro hle i n hbelow hn
    have hmem := remaining_mem_headrooms ((mem_path hids i).mpr hbelow) hn
    exact (hroom n).mp (hle.trans (List.min?_getD_le_of_mem hmem))
  · intro hall
    have hmem := remaining_mem_headrooms ((mem_path hids node).mpr (.refl node)) hn₀
    cases hmin : (Ledger.headrooms s ids).min? with
    | none =>
      rw [List.min?_eq_none_iff] at hmin
      rw [hmin] at hmem
      cases hmem
    | some least =>
      obtain ⟨i, hi, hleast⟩ := List.mem_filterMap.mp (List.min?_mem hmin)
      obtain ⟨n, hn, rfl⟩ := Option.map_eq_some_iff.mp hleast
      exact (hroom n).mpr (hall i n ((mem_path hids i).mp hi) hn)

/-- Either the largest fitting cap is granted, or no cap fits. -/
theorem reserve_spec {s : State} (h : Shape s) {node : NodeId} (prompt : Nat)
    {requested : Nat} (hpos : 0 < requested) (hopen : Open s node) :
    (∃ t r, Ledger.reserve s node prompt requested = some (t, .ok r) ∧
      Fits s node prompt requested r.maxTokens ∧
      ∀ c, Fits s node prompt requested c → c ≤ r.maxTokens) ∨
    ((∃ t e, Ledger.reserve s node prompt requested = some (t, .error e)) ∧
      ∀ c, ¬ Fits s node prompt requested c) := by
  obtain ⟨n₀, hn₀, halive, hadmission⟩ := hopen
  obtain ⟨ids, hids⟩ := h.tree.path_isSome (show (s.links node).isSome by simp [links_eq_some hn₀])
  have hfloor : 0 < min 4096 requested := Nat.lt_min.mpr ⟨by decide, hpos⟩
  have hfits : ∀ c, Fits s node prompt requested c ↔ min 4096 requested ≤ c ∧ c ≤ requested ∧
      prompt + c ≤ (Ledger.headrooms s ids).min?.getD 0 := by
    intro c
    constructor
    · rintro ⟨hc, hreq, hroom⟩
      exact ⟨hc, hreq, (headroom_iff hids hn₀ (by omega)).mpr hroom⟩
    · rintro ⟨hc, hreq, hroom⟩
      exact ⟨hc, hreq, (headroom_iff hids hn₀ (by omega)).mp hroom⟩
  simp only [hfits]
  have hany : ((s.scopes[node]?).any fun n => n.alive && !n.admissionClosed) = true := by
    simp [hn₀, halive, hadmission]
  unfold Ledger.reserve
  rw [if_neg (Nat.pos_iff_ne_zero.mp hpos), hany]
  simp only [Bool.not_true, Bool.false_eq_true, if_false, hids]
  generalize (Ledger.headrooms s ids).min?.getD 0 = headroom
  by_cases hrefused : min requested (headroom - prompt) < min minOutputTokens requested ∨
      headroom < prompt
  · simp only [if_pos hrefused]
    refine .inr ⟨⟨s, _, rfl⟩, fun c hc => ?_⟩
    simp only [minOutputTokens] at hrefused
    omega
  · -- The loop finds every scope of the path.
    obtain ⟨scopes, hscopes⟩ : ∃ scopes, updatePath
        (fun n => some (addReserved (prompt + min requested (headroom - prompt)) n)) ids
        s.scopes = some scopes := by
      refine Option.isSome_iff_exists.mp (updatePath_isSome (h.tree.path_nodup hids) fun i hi => ?_)
      have hbelow := (mem_path hids i).mp hi
      have hlt := links_isSome.mp (hbelow.known h.tree.ordered (by simp [links_eq_some hn₀]))
      simp [List.getElem?_eq_getElem hlt]
    simp only [addReserved] at hscopes
    simp only [if_neg hrefused, hscopes]
    refine .inl ⟨_, _, rfl, ?_, fun c hc => ?_⟩
    · simp only [minOutputTokens] at hrefused
      simp only
      omega
    · simp only
      omega

/-- A reserved path is within its limits. -/
theorem reserve_within {s t : State} (h : Shape s) {node : NodeId} {prompt requested : Nat}
    {r : Reservation} (hcall : Ledger.reserve s node prompt requested = some (t, .ok r))
    {i : NodeId} {n : Scope} (hbelow : Forest.Below t.links i node)
    (hn : t.scopes[i]? = some n) :
    n.budget.used + n.budget.reserved ≤ n.budget.limit := by
  obtain ⟨n₀, ids, hn₀, -, -, hids, -, -, -, -, -, -, hloop, -⟩ := reserve_ok hcall
  have hlinks : t.links = s.links := by
    have heq := links_updatePath (s := s) (fun n n' hn' => by
      obtain rfl := Option.some.inj hn'
      rfl) hloop
    exact heq
  have hi := (mem_path hids i).mpr (hlinks ▸ hbelow)
  rw [updatePath_getElem? (h.tree.path_nodup hids) hloop, if_pos hi] at hn
  obtain ⟨n', hn', hadd⟩ := Option.bind_eq_some_iff.mp hn
  obtain rfl := Option.some.inj hadd
  have hfit := (reserve_fits hcall hids hi hn').2
  simp only [addReserved]
  omega

/-- In every state a session reaches, whether or not a counter wrapped before,
    a reservation is granted exactly when some cap fits, and then for the
    largest one. -/
theorem reserve_exact (m : Mode) {limits : Limits} (hlimits : limits.budgetTokens < 2 ^ 64)
    {s : Session} (hs : (sessions m limits).Reachable s) (node : NodeId) (prompt : Nat)
    {requested : Nat} (hpos : 0 < requested) (hrequested : requested < 2 ^ 32) :
    (∃ outcome, reserve m s.ledger node prompt requested = some outcome) ∧
    ((∃ t r, reserve m s.ledger node prompt requested = some (t, .ok r)) ↔
      Open s.ledger node ∧ ∃ c, Fits s.ledger node prompt requested c) ∧
    ∀ t r, reserve m s.ledger node prompt requested = some (t, .ok r) →
      Fits s.ledger node prompt requested r.maxTokens ∧
      (∀ c, Fits s.ledger node prompt requested c → c ≤ r.maxTokens) ∧
      r.tokens = prompt + r.maxTokens ∧ r.tokens < 2 ^ 64 ∧
      ∀ i n, Forest.Below t.links i node → t.scopes[i]? = some n →
        n.budget.used + n.budget.reserved ≤ n.budget.limit := by
  have hshape := shape_of_reachable hlimits hs
  rw [reserve_eq m hshape hrequested]
  by_cases hopen : Open s.ledger node
  · rcases reserve_spec hshape prompt hpos hopen with
      ⟨t, r, hcall, hfits, hlargest⟩ | ⟨⟨t, e, hcall⟩, hnone⟩
    · refine ⟨⟨_, hcall⟩, ⟨fun _ => ⟨hopen, _, hfits⟩, fun _ => ⟨t, r, hcall⟩⟩, ?_⟩
      intro t' r' hcall'
      rw [hcall, Option.some.injEq, Prod.mk.injEq, Except.ok.injEq] at hcall'
      obtain ⟨rfl, rfl⟩ := hcall'
      obtain ⟨n, _, hn, -, -, -, -, -, htokens, -⟩ := reserve_ok hcall
      have hlimit := hshape.limit hn
      have hroom := (hfits.room node n (.refl node) hn).2
      exact ⟨hfits, hlargest, htokens, by omega,
        fun i n hbelow hn => reserve_within hshape hcall hbelow hn⟩
    · refine ⟨⟨_, hcall⟩, ⟨?_, ?_⟩, ?_⟩
      · rintro ⟨t', r, hok⟩
        rw [hcall] at hok
        cases hok
      · rintro ⟨-, c, hc⟩
        exact absurd hc (hnone c)
      · intro t' r hok
        rw [hcall] at hok
        cases hok
  · have hcall : Ledger.reserve s.ledger node prompt requested =
        some (s.ledger, .error "node is shut down") := by
      have hany : ((s.ledger.scopes[node]?).any fun n => n.alive && !n.admissionClosed) =
          false := by
        rw [Bool.eq_false_iff]
        intro hany
        obtain ⟨n, hn, hn'⟩ := (Option.any_eq_true _ _).mp hany
        simp only [Bool.and_eq_true, Bool.not_eq_true'] at hn'
        exact hopen ⟨n, hn, hn'⟩
      unfold Ledger.reserve
      rw [if_neg (Nat.pos_iff_ne_zero.mp hpos), hany]
      rfl
    refine ⟨⟨_, hcall⟩, ⟨?_, fun h => absurd h.1 hopen⟩, ?_⟩
    · rintro ⟨t', r, hok⟩
      rw [hcall] at hok
      cases hok
    · intro t' r hok
      rw [hcall] at hok
      cases hok

/-- A settlement whose usage wraps to a charge of zero. -/
def wrappedCalls : List Call :=
  [.reserve 0 10 8000, .settle ⟨0, ⟨0, 8010, 8000⟩⟩ (.usage ⟨2 ^ 64 - 1, 1, 0, 0⟩)]

/-- After it the ledger still grants what fits. -/
theorem reserve_exact_wrapped : ∃ s t r,
    (sessions .wrapping .default).run (sessions .wrapping .default).init wrappedCalls = some s ∧
      s.settled.map Settled.charged = [0] ∧
      reserve .wrapping s.ledger 0 10 8000 = some (t, .ok r) ∧
      Fits s.ledger 0 10 8000 r.maxTokens ∧ r.tokens = 10 + r.maxTokens := by
  have hrun : ∃ s, (sessions .wrapping .default).run (sessions .wrapping .default).init
      wrappedCalls = some s ∧ s.settled.map Settled.charged = [0] ∧
      ∃ t r, reserve .wrapping s.ledger 0 10 8000 = some (t, .ok r) :=
    ⟨_, rfl, rfl, _, _, rfl⟩
  obtain ⟨s, hs, hset, t, r, hcall⟩ := hrun
  have hexact := reserve_exact .wrapping (by decide) (LTS.System.reachable_of_run hs) 0 10
    (by decide : 0 < 8000) (by decide)
  obtain ⟨hfits, -, htokens, -⟩ := hexact.2.2 t r hcall
  exact ⟨s, t, r, hs, hset, hcall, hfits, htokens⟩

end Kyora.Ledger.Word
