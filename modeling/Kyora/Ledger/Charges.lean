import Kyora.Ledger.Word
import Kyora.Protocol

/-! # Charges in machine arithmetic

  A provider can report any four 64-bit counters, and the ledger adds them
  without a check. A settlement is exact as long as the sums on the scopes of
  its path fit 64 bits; from the first one on that does not fit, a debug build
  panics inside the ledger's mutex and a release build records too small a
  charge. A session whose settlements all fit is one of the exact ledger, so
  the condition also decides what each further settlement does.
-/

namespace Kyora.Ledger.Word

open Machine

/-! ### Sums -/

/-- The total has the outcome of the exact sum of the counters. -/
theorem total_eq (m : Mode) (u : Usage) : total m u = m.fit 64 u.total := by
  show ((m.fit 64 (u.inputTokens + u.outputTokens)).bind fun sum =>
    (m.fit 64 (sum + u.cacheCreationInputTokens)).bind fun sum =>
      m.fit 64 (sum + u.cacheReadInputTokens)) = _
  rw [← Option.bind_assoc, Mode.fit_add, Mode.fit_add]
  rfl

/-- Sums of counters that fit are exact. -/
theorem addAssign_eq {m : Mode} {a b : Usage} (h : (a + b).total < 2 ^ 64) :
    addAssign m a b = some (a + b) := by
  rw [Usage.total_add] at h
  simp only [Usage.total] at h
  unfold addAssign
  rw [Mode.add_of_lt (by omega), Mode.add_of_lt (by omega), Mode.add_of_lt (by omega),
    Mode.add_of_lt (by omega)]
  rfl

/-! ### One settlement -/

/-- What makes a settlement exact: on every scope from the node to the root the
    charge fits on top of what was used. An open scope with the largest limit
    there is only notices that it is exceeded if its reservations fit as well. -/
def FitsCharge (s : State) (node : NodeId) (tokens amount : Nat) : Prop :=
  ∀ i n, Forest.Below s.links i node → s.scopes[i]? = some n →
    n.budget.used + amount < 2 ^ 64 ∧
    (n.budget.closed = false → n.budget.limit = 2 ^ 64 - 1 →
      n.budget.used + amount + (n.budget.reserved - tokens) < 2 ^ 64)

theorem settleScope_eq {m : Mode} {tokens amount : Nat} {usage : Usage} {n : Scope}
    (hlimit : n.budget.limit < 2 ^ 64) (htokens : tokens ≤ n.budget.reserved)
    (hused : n.budget.used + amount < 2 ^ 64) (husage : (n.usage + usage).total < 2 ^ 64)
    (hclosed : n.budget.closed = false → n.budget.limit = 2 ^ 64 - 1 →
      n.budget.used + amount + (n.budget.reserved - tokens) < 2 ^ 64) :
    settleScope m tokens amount usage n = Ledger.settleScope tokens amount usage n := by
  rw [Ledger.settleScope_eq_some.mpr ⟨htokens, rfl⟩]
  unfold settleScope
  rw [Mode.sub_of_le htokens, Mode.add_of_lt hused, addAssign_eq husage]
  have hclose : (n.budget.closed || decide (saturatingAdd 64 (n.budget.used + amount)
        (n.budget.reserved - tokens) > n.budget.limit)) =
      (n.budget.closed || decide (n.budget.used + amount + (n.budget.reserved - tokens) >
        n.budget.limit)) := by
    cases hopen : n.budget.closed with
    | true => rfl
    | false =>
      have hmax := hclosed hopen
      rw [Bool.false_or, Bool.false_or, decide_eq_decide, saturatingAdd]
      omega
  simp only [Option.bind_eq_bind, Option.bind_some, hclose]
  rfl

/-- A held reservation is part of what is reserved on its path. -/
theorem held_le {s : Session} (h : Conserved s) {x : Issued}
    (hx : x ∈ s.outstanding) {i : NodeId} {n : Scope}
    (hbelow : Forest.Below s.ledger.links i x.node) (hn : s.ledger.scopes[i]? = some n) :
    x.reservation.tokens ≤ n.budget.reserved := by
  have hsum := h.reserved hn
  unfold Session.reservedBelow at hsum
  rw [Forest.total_erase hx, if_pos hbelow] at hsum
  omega

/-- What a scope used itself is part of what its subtree used. -/
theorem own_le {s : Session} (h : Conserved s) {i : NodeId} {n : Scope}
    (hn : s.ledger.scopes[i]? = some n) : n.own.total ≤ n.budget.used := by
  rw [← h.usageTotal hn, h.children hn, Usage.total_add]
  omega

theorem charged_eq {m : Mode} {tokens : Nat} {charge : Charge}
    (h : charge.charged tokens < 2 ^ 64) :
    charged m tokens charge = some (charge.charged tokens) := by
  match charge with
  | .usage u => exact (total_eq m u).trans (Mode.fit_of_lt h)
  | .failed .zero => rfl
  | .failed .reserved => rfl

/-- Where the charge fits, a held reservation is settled exactly. -/
theorem settle_eq {m : Mode} {limits : Limits} {s : Session} (hshape : Shape s.ledger)
    (hreach : (Ledger.sessions limits).Reachable s) {x : Issued} (hx : x ∈ s.outstanding)
    {charge : Charge}
    (hfits : FitsCharge s.ledger x.node x.reservation.tokens
      (charge.charged x.reservation.tokens)) :
    settle m s.ledger x.reservation charge = Ledger.settle s.ledger x.reservation charge := by
  have hm := matched_of_reachable hreach
  have hconserved := ledger_conservation limits hreach
  obtain ⟨ids, hids⟩ := hm.tree.path_isSome (hm.placed x hx)
  have hknown := links_isSome.mp (hm.placed x hx)
  have hnode := List.getElem?_eq_getElem hknown
  have hamount := (hfits x.node _ (.refl x.node) hnode).1
  have hcharged : charged m x.attempt.tokens charge = some (charge.charged x.attempt.tokens) :=
    charged_eq (Nat.lt_of_le_of_lt (Nat.le_add_left _ _) hamount)
  have hloop : updatePath (settleScope m x.attempt.tokens (charge.charged x.attempt.tokens)
        (charge.recorded x.attempt.tokens)) ids s.ledger.scopes =
      updatePath (Ledger.settleScope x.attempt.tokens (charge.charged x.attempt.tokens)
        (charge.recorded x.attempt.tokens)) ids s.ledger.scopes := by
    refine updatePath_congr (hm.tree.path_nodup hids) fun i hi n hn => ?_
    have hbelow := (mem_path hids i).mp hi
    obtain ⟨hused, hclosed⟩ := hfits i n hbelow hn
    -- The usage of a scope adds up to what it used.
    have husage : (n.usage + charge.recorded x.attempt.tokens).total < 2 ^ 64 := by
      rw [Usage.total_add, Charge.total_recorded, hconserved.usageTotal hn]
      exact hused
    exact settleScope_eq (hshape.limit hn) (held_le hconserved hx hbelow hn) hused husage
      hclosed
  unfold settle Ledger.settle
  simp only [hm.find?_attempt hx, hcharged, show path s.ledger x.attempt.node = some ids from hids,
    hloop]
  cases hscopes : updatePath (Ledger.settleScope x.attempt.tokens
      (charge.charged x.attempt.tokens) (charge.recorded x.attempt.tokens)) ids
      s.ledger.scopes with
  | none => rfl
  | some scopes =>
    simp only
    have hget := updatePath_getElem? (hm.tree.path_nodup hids) hscopes x.node
    rw [if_pos ((mem_path hids x.node).mpr (.refl x.node)), hnode, Option.bind_some] at hget
    cases hn : scopes[x.attempt.node]? with
    | none => rfl
    | some n =>
      have hshare := hget.symm.trans hn
      obtain ⟨-, rfl⟩ := settleScope_eq_some.mp hshare
      have hown : (s.ledger.scopes[x.node].own + charge.recorded x.attempt.tokens).total <
          2 ^ 64 := by
        have hle := own_le hconserved hnode
        rw [Usage.total_add, Charge.total_recorded]
        exact Nat.lt_of_le_of_lt (Nat.add_le_add_right hle _) hamount
      simp only [addAssign_eq hown]

/-! ### Sessions whose charges fit -/

/-- A settlement whose charge fits; every other call. -/
def Within (s : Session) : Call → Prop
  | .settle x charge =>
    FitsCharge s.ledger x.node x.reservation.tokens (charge.charged x.reservation.tokens)
  | _ => True

/-- A call within the bounds does what it does in exact arithmetic. -/
theorem step_within {m : Mode} {limits : Limits} {s t : Session} {l : Call}
    (hshape : Shape s.ledger) (hreach : (Ledger.sessions limits).Reachable s)
    (hwithin : Within s l) (hstep : step m limits s l = some t) :
    Ledger.step limits s l = some t := by
  have htyped := typed_of_step hstep
  by_cases hsettle : ∃ x charge, l = .settle x charge
  · obtain ⟨x, charge, rfl⟩ := hsettle
    simp only [step, htyped, Bool.not_true, Bool.false_eq_true, if_false] at hstep
    by_cases hx : x ∈ s.outstanding
    · rw [if_pos hx, settle_eq hshape hreach hx hwithin] at hstep
      simp only [Ledger.step, if_pos hx]
      exact hstep
    · rw [if_neg hx] at hstep
      cases hstep
  · rwa [step_eq hshape htyped fun x charge heq => hsettle ⟨x, charge, heq⟩] at hstep

/-- A session whose charges all fit is a session of the exact ledger. -/
theorem exact_of_reachable {m : Mode} {limits : Limits} (hlimits : limits.budgetTokens < 2 ^ 64)
    {s : Session} (h : (sessions m limits).ReachableBy Within s) :
    (Ledger.sessions limits).Reachable s := by
  induction h with
  | init => exact .init
  | step hstarts hwithin hstep ih =>
    have hshape := shape_of_reachable hlimits hstarts.reachable
    exact ih.next (step_within hshape ih hwithin hstep)

/-- The attempt is settled with this usage, and nothing wraps: the charge is
    the sum of the counters and no less than any of them, no scope of the path
    uses less than before, and a scope that the charge takes past its limit is
    closed. -/
structure Charges (m : Mode) (s : Session) (x : Issued) (u : Usage) (t : State)
    (result : Settlement) : Prop where
  settled : settle m s.ledger x.reservation (.usage u) = some (t, result)
  total : result.charged = u.total
  counters : u.inputTokens ≤ result.charged ∧ u.outputTokens ≤ result.charged ∧
    u.cacheCreationInputTokens ≤ result.charged ∧ u.cacheReadInputTokens ≤ result.charged
  used : ∀ i n n', Forest.Below s.ledger.links i x.node → s.ledger.scopes[i]? = some n →
    t.scopes[i]? = some n' → n.budget.used ≤ n'.budget.used
  closes : ∀ i n n', Forest.Below s.ledger.links i x.node → s.ledger.scopes[i]? = some n →
    t.scopes[i]? = some n' →
    n.budget.limit < n.budget.used + (n.budget.reserved - x.reservation.tokens) + u.total →
    n'.budget.closed = true

theorem charges_of_fits {m : Mode} {limits : Limits} {s : Session} (hshape : Shape s.ledger)
    (hreach : (Ledger.sessions limits).Reachable s) {x : Issued} (hx : x ∈ s.outstanding)
    {u : Usage} (hfits : FitsCharge s.ledger x.node x.reservation.tokens u.total) :
    ∃ t result, Charges m s x u t result := by
  have hm := matched_of_reachable hreach
  have hc := counted_of_reachable hreach
  obtain ⟨⟨t, result⟩, hcall⟩ := settle_isSome hm hc hx (.usage u)
  obtain ⟨-, hcharged, hscopes⟩ := settle_getElem? hm hx hcall
  have hbudget : ∀ i n n', Forest.Below s.ledger.links i x.node →
      s.ledger.scopes[i]? = some n → t.scopes[i]? = some n' →
      n'.budget.used = n.budget.used + u.total ∧
      n'.budget.closed = (n.budget.closed || decide (n.budget.used + u.total +
        (n.budget.reserved - x.reservation.tokens) > n.budget.limit)) := by
    intro i n n' hbelow hn hn'
    obtain ⟨m₀, m₁, hm₀, hshare, rfl⟩ := hscopes hn'
    obtain rfl : n = m₀ := Option.some.inj (hn.symm.trans hm₀)
    rcases hshare with ⟨-, hshare⟩ | ⟨hnot, -⟩
    · obtain ⟨-, rfl⟩ := settleScope_eq_some.mp hshare
      exact ⟨rfl, rfl⟩
    · exact absurd hbelow hnot
  refine ⟨t, result, ?_, hcharged, ?_, ?_, ?_⟩
  · have heq : settle m s.ledger x.reservation (.usage u) =
        Ledger.settle s.ledger x.reservation (.usage u) := settle_eq hshape hreach hx hfits
    exact heq.trans hcall
  · rw [hcharged]
    simp only [Charge.charged, Usage.total]
    omega
  · intro i n n' hbelow hn hn'
    rw [(hbudget i n n' hbelow hn hn').1]
    omega
  · intro i n n' hbelow hn hn' hover
    rw [(hbudget i n n' hbelow hn hn').2]
    have hdecide : decide (n.budget.used + u.total + (n.budget.reserved - x.reservation.tokens) >
        n.budget.limit) = true := decide_eq_true (by omega)
    rw [hdecide, Bool.or_true]

/-- The share of a scope, whatever wraps. -/
theorem settleScope_ok {m : Mode} {tokens amount : Nat} {usage : Usage} {n n' : Scope}
    (h : settleScope m tokens amount usage n = some n') :
    m.sub 64 n.budget.reserved tokens = some n'.budget.reserved ∧
      m.add 64 n.budget.used amount = some n'.budget.used ∧
      n'.budget.closed = (n.budget.closed ||
        decide (saturatingAdd 64 n'.budget.used n'.budget.reserved > n.budget.limit)) := by
  simp only [settleScope, Option.bind_eq_bind, Option.bind_eq_some_iff] at h
  obtain ⟨reserved, hreserved, used, hused, usage', -, h⟩ := h
  obtain rfl := Option.some.inj h
  exact ⟨hreserved, hused, rfl⟩

/-- The budgets after a settlement are those of its loop. -/
theorem settle_budget {m : Mode} {s : Session} {t : State} {x : Issued} {charge : Charge}
    {result : Settlement} (hm : Matched s) (hx : x ∈ s.outstanding)
    (h : settle m s.ledger x.reservation charge = some (t, result)) {i : NodeId} {n : Scope}
    (hbelow : Forest.Below s.ledger.links i x.node) (hn : s.ledger.scopes[i]? = some n) :
    ∃ n₁ n', settleScope m x.reservation.tokens result.charged
        (charge.recorded x.reservation.tokens) n = some n₁ ∧
      t.scopes[i]? = some n' ∧ n'.budget = n₁.budget := by
  obtain ⟨a, c, ids, scopes, n₀, own, ha, -, hids, hscopes, hn₀, -, rfl, rfl⟩ := settle_ok h
  obtain rfl : x.attempt = a := by
    rw [hm.find?_attempt hx] at ha
    exact Option.some.inj ha
  have hget := updatePath_getElem? (hm.tree.path_nodup hids) hscopes i
  rw [if_pos ((mem_path hids i).mpr hbelow), hn, Option.bind_some] at hget
  have hkept := map_updatePath (fun _ _ => fixed_settleScope) hscopes i
  rw [hn, Option.map_some, Option.map_eq_some_iff] at hkept
  obtain ⟨n₁, hn₁, -⟩ := hkept
  have hlt : i < scopes.length := (List.getElem?_eq_some_iff.mp hn₁).1
  refine ⟨n₁, ?_⟩
  by_cases hi : x.attempt.node = i
  · subst hi
    obtain rfl : n₀ = n₁ := Option.some.inj (hn₀.symm.trans hn₁)
    exact ⟨{ n₀ with own }, hget.symm.trans hn₁, List.getElem?_set_self hlt, rfl⟩
  · exact ⟨n₁, hget.symm.trans hn₁, by rw [List.getElem?_set_ne hi, hn₁], rfl⟩

/-- A settlement within which nothing wraps fits. -/
theorem fits_of_charges {m : Mode} {limits : Limits} {s : Session}
    (hreach : (Ledger.sessions limits).Reachable s) {x : Issued} (hx : x ∈ s.outstanding)
    {u : Usage} {t : State} {result : Settlement} (h : Charges m s x u t result) :
    FitsCharge s.ledger x.node x.reservation.tokens u.total := by
  intro i n hbelow hn
  obtain ⟨n₁, n', hshare, hn', hbudget⟩ :=
    settle_budget (matched_of_reachable hreach) hx h.settled hbelow hn
  obtain ⟨hreserved, hused, hclosed⟩ := settleScope_ok hshare
  rw [← hbudget, h.total] at hused
  have htokens := held_le (ledger_conservation limits hreach) hx hbelow hn
  rw [Mode.sub_of_le htokens] at hreserved
  have hgrows := h.used i n n' hbelow hn hn'
  have hbound : n'.budget.used < 2 ^ 64 := Mode.fit_lt hused
  have htotal : u.total < 2 ^ 64 := by
    obtain ⟨a, c, -, -, -, -, -, hcharged, -, -, -, -, -, hresult⟩ := settle_ok h.settled
    have heq := h.total
    rw [hresult] at heq
    simp only at heq
    exact heq ▸ Mode.fit_lt ((total_eq m u).symm.trans hcharged)
  have hfit : n.budget.used + u.total < 2 ^ 64 := by
    by_contra hover
    rcases Mode.add_of_le (m := m) (Nat.le_of_not_lt hover) (by omega) htotal with
      hnone | ⟨c, hc, hlt, -⟩
    · rw [hnone] at hused
      cases hused
    · rw [hc] at hused
      obtain rfl := Option.some.inj hused
      omega
  refine ⟨hfit, fun hopen hlimit => ?_⟩
  by_contra hover
  -- The saturated sum is never above the largest limit.
  have hmust := h.closes i n n' hbelow hn hn' (by omega)
  rw [hbudget, hclosed, hopen, Bool.false_or, decide_eq_true_eq, saturatingAdd] at hmust
  omega

/-! ### The next estimate -/

section

variable (bytes : List ContentBlock → Nat) (toolBytes : List ToolSpec → Nat)

/-- Bytes of the serialized contents of some messages. -/
def contents (messages : List Message) : List Nat := messages.map fun m => bytes m.content

/-- Estimates prompt tokens before adding `max_tokens`. `previous` is the last
    completed request and the number of history messages it sent; `bytes` and
    `toolBytes` are the lengths of the serialized forms. -/
def estimate (m : Mode) (request : ModelRequest) : Option (Usage × Nat) → Option Nat
  | some (usage, sent) => do
    -- The response's message is represented by its measured output tokens.
    let new := request.messages.drop (sent + 1)
    let tokens ← total m usage
    let sum ← m.sum 64 (contents bytes new)
    let tokens ← m.add 64 tokens sum
    let marks ← m.mul 64 16 new.length
    m.add 64 tokens marks
  | none => do
    let tokens := (request.system.map String.utf8ByteSize).getD 0
    let tokens ← m.add 64 tokens (toolBytes request.tools)
    let sum ← m.sum 64 (contents bytes request.messages)
    let tokens ← m.add 64 tokens sum
    let marks ← m.mul 64 16 request.messages.length
    let tokens ← m.add 64 tokens marks
    m.add 64 tokens 512

/-- What the messages after the last request add to an estimate. -/
def addedTokens (request : ModelRequest) (sent : Nat) : Nat :=
  let new := request.messages.drop (sent + 1)
  (contents bytes new).sum + 16 * new.length

/-- The estimate has the outcome of its exact value. -/
theorem estimate_eq (m : Mode) (request : ModelRequest) (u : Usage) (sent : Nat)
    (hadded : addedTokens bytes request sent < 2 ^ 64) :
    estimate bytes toolBytes m request (some (u, sent)) =
      m.fit 64 (u.total + addedTokens bytes request sent) := by
  simp only [addedTokens] at hadded ⊢
  simp only [estimate, Mode.sum_eq, total_eq]
  generalize (contents bytes (request.messages.drop (sent + 1))).sum = sum at hadded ⊢
  generalize (request.messages.drop (sent + 1)).length = count at hadded ⊢
  rw [Mode.fit_of_lt (show sum < 2 ^ 64 by omega), Mode.mul,
    Mode.fit_of_lt (show 16 * count < 2 ^ 64 by omega)]
  show ((m.fit 64 u.total).bind fun tokens => (m.fit 64 (tokens + sum)).bind fun tokens =>
    m.fit 64 (tokens + 16 * count)) = _
  rw [← Option.bind_assoc, Mode.fit_add, Mode.fit_add, Nat.add_assoc]

/-- The estimate covers the usage it is built from exactly when it fits. -/
theorem estimate_covers (m : Mode) (request : ModelRequest) (u : Usage) (sent : Nat)
    (hadded : addedTokens bytes request sent < 2 ^ 64) :
    (∃ e, estimate bytes toolBytes m request (some (u, sent)) = some e ∧ u.total ≤ e) ↔
      u.total + addedTokens bytes request sent < 2 ^ 64 := by
  rw [estimate_eq bytes toolBytes m request u sent hadded]
  constructor
  · rintro ⟨e, he, hle⟩
    by_contra hover
    have hbound := Mode.fit_lt he
    rcases Mode.add_of_le (m := m) (Nat.le_of_not_lt hover) (by omega) hadded with
      hnone | ⟨c, hc, hlt, -⟩
    · rw [Mode.add, he] at hnone
      cases hnone
    · rw [Mode.add, he] at hc
      obtain rfl := Option.some.inj hc
      omega
  · intro hfits
    exact ⟨_, Mode.fit_of_lt hfits, Nat.le_add_right _ _⟩

end

/-! ### When charges are exact -/

/-- In every session whose settlements all fit, a further attempt is settled
    without a panic and without wrapping exactly when its usage fits as well,
    and the next estimate covers that usage exactly when its own sum fits. -/
theorem charges_iff (m : Mode) {limits : Limits} (hlimits : limits.budgetTokens < 2 ^ 64)
    {s : Session} (hs : (sessions m limits).ReachableBy Within s) {x : Issued}
    (hx : x ∈ s.outstanding) (u : Usage) :
    ((∃ t result, Charges m s x u t result) ↔
      FitsCharge s.ledger x.node x.reservation.tokens u.total) ∧
    ∀ bytes toolBytes request sent, addedTokens bytes request sent < 2 ^ 64 →
      ((∃ e, estimate bytes toolBytes m request (some (u, sent)) = some e ∧ u.total ≤ e) ↔
        u.total + addedTokens bytes request sent < 2 ^ 64) := by
  have hreach := exact_of_reachable hlimits hs
  have hshape := shape_of_reachable hlimits hs.reachable
  refine ⟨⟨?_, charges_of_fits hshape hreach hx⟩, ?_⟩
  · rintro ⟨t, result, h⟩
    exact fits_of_charges hreach hx h
  · intro bytes toolBytes request sent hadded
    exact estimate_covers bytes toolBytes m request u sent hadded

/-- One reservation of the root. -/
def reservedCalls : List Call := [.reserve 0 10 8000]

/-- The attempt of that reservation. -/
def reservedAttempt : Issued := ⟨0, ⟨0, 8010, 8000⟩⟩

/-- A usage that fits is charged. -/
theorem charges_iff_reserved : ∃ s t result,
    (sessions .checked .default).run (sessions .checked .default).init reservedCalls = some s ∧
      Charges .checked s reservedAttempt ⟨120, 7000, 0, 7⟩ t result := by
  have hrun : ∃ s, (sessions .checked .default).run (sessions .checked .default).init
      reservedCalls = some s ∧ (sessions .checked .default).ReachableBy Within s ∧
      reservedAttempt ∈ s.outstanding ∧
      ∃ n, s.ledger.scopes = [n] ∧ n.budget.used = 0 ∧ n.budget.limit = 20000000 :=
    ⟨_, rfl, .step (l := .reserve 0 10 8000) .init trivial rfl, by decide, _, rfl, rfl, rfl⟩
  obtain ⟨s, hs, hreach, hx, root, hscopes, hused, hlimit⟩ := hrun
  have hiff := (charges_iff .checked (by decide) hreach hx ⟨120, 7000, 0, 7⟩).1
  obtain ⟨t, result, h⟩ := hiff.mpr fun i n _ hn => by
    obtain rfl : n = root := List.mem_singleton.mp (hscopes ▸ List.mem_of_getElem? hn)
    rw [hused, hlimit]
    exact ⟨by decide, fun _ hmax => absurd hmax (by decide)⟩
  exact ⟨s, t, result, hs, h⟩

/-- A usage of 2^64 tokens panics in a debug build; a release build charges
    nothing for it. -/
theorem charges_overflow :
    (∃ s, (sessions .checked .default).run (sessions .checked .default).init reservedCalls =
        some s ∧ usageFits ⟨2 ^ 64 - 1, 1, 0, 0⟩ = true ∧ reservedAttempt ∈ s.outstanding ∧
      settle .checked s.ledger reservedAttempt.reservation (.usage ⟨2 ^ 64 - 1, 1, 0, 0⟩) =
        none) ∧
    ∃ s t result, (sessions .wrapping .default).run (sessions .wrapping .default).init
        reservedCalls = some s ∧ reservedAttempt ∈ s.outstanding ∧
      settle .wrapping s.ledger reservedAttempt.reservation (.usage ⟨2 ^ 64 - 1, 1, 0, 0⟩) =
        some (t, result) ∧ result.charged = 0 :=
  ⟨⟨_, rfl, by decide, by decide, rfl⟩, _, _, _, rfl, by decide, rfl, rfl⟩

end Kyora.Ledger.Word
