import Kyora.Ledger.Session

/-! # Admission limits

  The counters of the ledger count scopes: alive agents, agents ever admitted,
  and leaves. Reservations and settlements leave the place of every scope
  alone, so only admissions, closings and shutdowns matter here.
-/

namespace Kyora.Ledger

/-! ### Places -/

/-- Where a scope stands: what reservations and settlements never touch. -/
structure Place where
  parent : Option NodeId
  depth : Nat
  agent : Bool
  alive : Bool
  admissionClosed : Bool
  deriving DecidableEq, Repr

def Scope.place (n : Scope) : Place := ⟨n.parent, n.depth, n.agent, n.alive, n.admissionClosed⟩

/-- No admission below the scope and no reservation for it succeeds. -/
def Scope.shut (n : Scope) : Bool := !n.alive || n.admissionClosed

/-- An alive agent. -/
def Scope.lives (n : Scope) : Bool := n.agent && n.alive

/-- Setting a scope to one with the same image changes no image. -/
theorem map_set_same {α β : Type} {g : α → β} {xs : List α} {i : Nat} {x y : α}
    (hx : xs[i]? = some x) (hg : g y = g x) : (xs.set i y).map g = xs.map g := by
  obtain ⟨hlt, rfl⟩ := List.getElem?_eq_some_iff.mp hx
  rw [List.map_set, hg, ← List.getElem_map g (h := by simpa using hlt), List.set_getElem_self]

theorem map_updatePath {β : Type} {g : Scope → β} {f : Scope → Option Scope}
    (hf : ∀ n n', f n = some n' → g n' = g n) {ids : List NodeId} {scopes scopes' : List Scope}
    (h : updatePath f ids scopes = some scopes') : scopes'.map g = scopes.map g := by
  induction ids generalizing scopes with
  | nil =>
    obtain rfl := Option.some.inj h
    rfl
  | cons id rest ih =>
    obtain ⟨n, n', hn, hn', hrest⟩ := updatePath_cons.mp h
    rw [ih hrest, map_set_same hn (hf n n' hn')]

/-- A reservation moves no scope. -/
theorem reserve_place {s t : State} {node : NodeId} {e m : Nat} {r : Reservation}
    (h : reserve s node e m = some (t, .ok r)) :
    t.scopes.map Scope.place = s.scopes.map Scope.place := by
  obtain ⟨_, _, -, -, -, -, -, -, -, -, -, -, hloop, -⟩ := reserve_ok h
  refine map_updatePath (fun n n' hn => ?_) hloop
  obtain rfl := Option.some.inj hn
  rfl

/-- A settlement moves no scope. -/
theorem settle_place {s t : State} {r : Reservation} {charge : Charge} {result : Settlement}
    (h : settle s r charge = some (t, result)) :
    t.scopes.map Scope.place = s.scopes.map Scope.place := by
  obtain ⟨a, ids, scopes, n, -, -, hloop, hn, hscopes, -⟩ := settle_ok h
  have hown : Scope.place { n with own := n.own + charge.recorded a.tokens } = n.place := rfl
  rw [hscopes, map_set_same hn hown]
  refine map_updatePath (fun n n' hn => ?_) hloop
  obtain ⟨-, rfl⟩ := settleScope_eq_some.mp hn
  rfl

/-! ### What one call does to the places -/

/-- A shutdown that finds the scope alive ends it and frees its slot. -/
theorem shutdown_cases {s t : State} {node : NodeId} (h : shutdown s node = some t) :
    ∃ n, s.scopes[node]? = some n ∧
      ((n.alive = false ∧ t = s) ∨
      (n.alive = true ∧ t.scopes = s.scopes.set node { n with alive := false } ∧
        t.total = s.total ∧ t.llm = s.llm ∧ t.live + n.agent.toNat = s.live)) := by
  unfold shutdown at h
  split at h
  · cases h
  next n hn =>
  refine ⟨n, hn, ?_⟩
  split at h
  · next halive =>
    right
    split at h
    · next hagent =>
      split at h
      · cases h
      · next live hlive =>
        obtain ⟨hle, rfl⟩ := checkedSub_eq_some.mp hlive
        obtain rfl := Option.some.inj h
        refine ⟨halive, rfl, rfl, rfl, ?_⟩
        rw [hagent]
        exact Nat.sub_add_cancel hle
    · next hleaf =>
      obtain rfl := Option.some.inj h
      have hfalse : n.agent = false := by simpa using hleaf
      refine ⟨halive, rfl, rfl, rfl, ?_⟩
      rw [hfalse]
      rfl
  · next hended =>
    left
    obtain rfl := Option.some.inj h
    exact ⟨by simpa using hended, rfl⟩

/-- How a call changes the places and the counters. -/
inductive Shifts (limits : Limits) (s t : State) : Prop where
  /-- Nothing moves. -/
  | stay (hplace : t.scopes.map Scope.place = s.scopes.map Scope.place)
      (htotal : t.total = s.total) (hlive : t.live = s.live) (hllm : t.llm = s.llm)
  | admitted (parent : NodeId) (p : Scope) (agent : Bool) (budget : Nat)
      (hp : s.scopes[parent]? = some p) (hopen : p.shut = false)
      (hlimit : exceededLimit limits s agent (p.depth + agent.toNat) = none)
      (hscopes : t.scopes =
        s.scopes ++ [freshScope (some parent) (p.depth + agent.toNat) agent budget])
      (htotal : t.total = s.total + agent.toNat) (hlive : t.live = s.live + agent.toNat)
      (hllm : t.llm = s.llm + (!agent).toNat)
  | closed (node : NodeId) (n : Scope) (hn : s.scopes[node]? = some n)
      (hscopes : t.scopes = s.scopes.set node { n with admissionClosed := true })
      (htotal : t.total = s.total) (hlive : t.live = s.live) (hllm : t.llm = s.llm)
  | ended (node : NodeId) (n : Scope) (hn : s.scopes[node]? = some n) (halive : n.alive = true)
      (hscopes : t.scopes = s.scopes.set node { n with alive := false })
      (htotal : t.total = s.total) (hllm : t.llm = s.llm)
      (hlive : t.live + n.agent.toNat = s.live)

theorem shifts_of_step {limits : Limits} {s t : Session} {l : Call}
    (h : step limits s l = some t) : Shifts limits s.ledger t.ledger := by
  cases l with
  | admitChild parent agent limit =>
    obtain ⟨⟨ledger, result⟩, hcall, rfl⟩ := Option.map_eq_some_iff.mp h
    cases result with
    | ok id =>
      obtain ⟨p, ids, hp, halive, hclosed, hlimit, -, -, -, hscopes, -, -, htotal, hlive, hllm⟩ :=
        admitChild_ok hcall
      have hopen : p.shut = false := by
        rw [Scope.shut, halive, hclosed]
        rfl
      exact .admitted parent p agent _ hp hopen hlimit hscopes htotal hlive hllm
    | error e =>
      obtain rfl := admitChild_error hcall
      exact .stay rfl rfl rfl rfl
  | reserve node e m =>
    obtain ⟨⟨ledger, result⟩, hcall, rfl⟩ := Option.map_eq_some_iff.mp h
    cases result with
    | ok r =>
      obtain ⟨_, _, -, -, -, -, -, -, -, -, -, -, -, -, -, htotal, hlive, hllm⟩ := reserve_ok hcall
      exact .stay (reserve_place hcall) htotal hlive hllm
    | error e =>
      obtain rfl := reserve_error hcall
      exact .stay rfl rfl rfl rfl
  | settle x charge =>
    simp only [step] at h
    split at h
    · obtain ⟨⟨ledger, result⟩, hcall, rfl⟩ := Option.map_eq_some_iff.mp h
      obtain ⟨_, _, _, _, -, -, -, -, -, -, -, htotal, hlive, hllm, -⟩ := settle_ok hcall
      exact .stay (settle_place hcall) htotal hlive hllm
    · cases h
  | closeAdmission node =>
    obtain ⟨ledger, hcall, rfl⟩ := Option.map_eq_some_iff.mp h
    unfold closeAdmission at hcall
    split at hcall
    · cases hcall
    · next n hn =>
      obtain rfl := Option.some.inj hcall
      exact .closed node n hn rfl rfl rfl rfl
  | shutdown node =>
    obtain ⟨ledger, hcall, rfl⟩ := Option.map_eq_some_iff.mp h
    obtain ⟨n, hn, ⟨-, rfl⟩ | ⟨halive, hscopes, htotal, hllm, hlive⟩⟩ := shutdown_cases hcall
    · exact .stay rfl rfl rfl rfl
    · exact .ended node n hn halive hscopes htotal hllm hlive

/-! ### Counters -/

/-- The counters count scopes, within their limits. -/
structure Tallied (limits : Limits) (s : State) : Prop where
  live : s.live = s.scopes.countP Scope.lives
  total : s.total = s.scopes.countP Scope.agent
  llm : s.llm = s.scopes.countP fun n => !n.agent
  maxLive : s.live ≤ limits.maxAgentsLive
  maxTotal : s.total ≤ limits.maxAgentsTotal
  maxLlm : s.llm ≤ limits.maxLlmCalls

/-- Agents are one level below their parents, and leaves on the same level. -/
structure Levelled (limits : Limits) (s : State) : Prop where
  root : ∀ {i : NodeId} {n : Scope}, s.scopes[i]? = some n → n.parent = none → n.depth = 0
  child : ∀ {i p : NodeId} {n : Scope}, s.scopes[i]? = some n → n.parent = some p →
    ∃ m, s.scopes[p]? = some m ∧ n.depth = m.depth + n.agent.toNat
  maxDepth : ∀ {i : NodeId} {n : Scope}, s.scopes[i]? = some n → n.depth ≤ limits.maxDepth

/-- Counts over scopes are counts over their places. -/
theorem countP_of_place {s t : State} {p : Place → Bool}
    (h : t.scopes.map Scope.place = s.scopes.map Scope.place) :
    t.scopes.countP (fun n => p n.place) = s.scopes.countP fun n => p n.place := by
  have hmap : ∀ u : State,
      u.scopes.countP (fun n => p n.place) = (u.scopes.map Scope.place).countP p := by
    intro u
    rw [List.countP_map]
    rfl
  rw [hmap, hmap, h]

/-- Counting after one element changed. -/
theorem countP_set {α : Type} {p : α → Bool} {xs : List α} {i : Nat} {x y : α}
    (hx : xs[i]? = some x) :
    (xs.set i y).countP p + (p x).toNat = xs.countP p + (p y).toNat := by
  induction xs generalizing i with
  | nil => simp at hx
  | cons z zs ih =>
    have hcons : ∀ (a : α) (as : List α),
        (a :: as).countP p = as.countP p + (p a).toNat := by
      intro a as
      rw [List.countP_cons]
      cases p a <;> rfl
    cases i with
    | zero =>
      obtain rfl : z = x := by simpa using hx
      rw [List.set_cons_zero, hcons, hcons]
      omega
    | succ i =>
      have hrest := ih (i := i) (by simpa using hx)
      rw [List.set_cons_succ, hcons, hcons]
      omega

/-- An admission that no limit refuses. -/
theorem exceededLimit_none {limits : Limits} {s : State} {agent : Bool} {depth : Nat}
    (h : exceededLimit limits s agent depth = none) :
    (agent = true → depth ≤ limits.maxDepth ∧ s.live < limits.maxAgentsLive ∧
      s.total < limits.maxAgentsTotal) ∧
    (agent = false → s.llm < limits.maxLlmCalls) := by
  unfold exceededLimit at h
  rw [Option.map_eq_none_iff, List.find?_eq_none] at h
  simp only [List.forall_mem_cons, List.not_mem_nil, false_implies, implies_true, and_true,
    Bool.and_eq_true, decide_eq_true_eq, not_and, Nat.not_lt, Nat.not_le, gt_iff_lt, ge_iff_le,
    Bool.not_eq_true'] at h
  obtain ⟨hdepth, hlive, htotal, hllm⟩ := h
  exact ⟨fun hagent => ⟨hdepth hagent, hlive hagent, htotal hagent⟩, hllm⟩

theorem tallied_shifts {limits : Limits} {s t : State} (h : Tallied limits s)
    (hshift : Shifts limits s t) : Tallied limits t := by
  obtain ⟨hlive, htotal, hllm, hmaxLive, hmaxTotal, hmaxLlm⟩ := h
  cases hshift with
  | stay hplace htotal' hlive' hllm' =>
    have hcount := fun p : Place → Bool => countP_of_place (p := p) hplace
    refine ⟨?_, ?_, ?_, by omega, by omega, by omega⟩
    · rw [hlive', hlive]
      exact (hcount fun n => n.agent && n.alive).symm
    · rw [htotal', htotal]
      exact (hcount Place.agent).symm
    · rw [hllm', hllm]
      exact (hcount fun n => !n.agent).symm
  | admitted parent p agent budget hp hopen hlimit hscopes htotal' hlive' hllm' =>
    obtain ⟨hagent, hleaf⟩ := exceededLimit_none hlimit
    have hsnoc : ∀ q : Scope → Bool, t.scopes.countP q = s.scopes.countP q +
        (q (freshScope (some parent) (p.depth + agent.toNat) agent budget)).toNat := by
      intro q
      rw [hscopes, List.countP_append, List.countP_singleton]
      cases q (freshScope (some parent) (p.depth + agent.toNat) agent budget) <;> rfl
    have hfresh : (freshScope (some parent) (p.depth + agent.toNat) agent budget).lives = agent :=
      Bool.and_true agent
    have hcountLive := hsnoc Scope.lives
    have hcountTotal : t.scopes.countP Scope.agent = s.scopes.countP Scope.agent + agent.toNat :=
      hsnoc Scope.agent
    have hcountLlm : t.scopes.countP (fun n => !n.agent) =
        s.scopes.countP (fun n => !n.agent) + (!agent).toNat := hsnoc fun n => !n.agent
    rw [hfresh] at hcountLive
    refine ⟨by omega, by omega, by omega, ?_, ?_, ?_⟩
    -- Each counter grows only where its limit was just checked.
    · cases agent with
      | true => have := (hagent rfl).2.1; simp at hlive'; omega
      | false => simp at hlive'; omega
    · cases agent with
      | true => have := (hagent rfl).2.2; simp at htotal'; omega
      | false => simp at htotal'; omega
    · cases agent with
      | true => simp at hllm'; omega
      | false => have := hleaf rfl; simp at hllm'; omega
  | closed node n hn hscopes htotal' hlive' hllm' =>
    have hcount := fun p : Scope → Bool => countP_set (p := p)
      (y := { n with admissionClosed := true }) hn
    have hcountLive : _ + n.lives.toNat = _ + n.lives.toNat := hcount Scope.lives
    have hcountTotal : _ + n.agent.toNat = _ + n.agent.toNat := hcount Scope.agent
    have hcountLlm : _ + (!n.agent).toNat = _ + (!n.agent).toNat := hcount fun n => !n.agent
    rw [← hscopes] at hcountLive hcountTotal hcountLlm
    exact ⟨by omega, by omega, by omega, by omega, by omega, by omega⟩
  | ended node n hn halive hscopes htotal' hllm' hlive' =>
    have hcount := fun p : Scope → Bool => countP_set (p := p)
      (y := { n with alive := false }) hn
    have hbefore : n.lives = n.agent := by
      rw [Scope.lives, halive, Bool.and_true]
    have hafter : ({ n with alive := false } : Scope).lives = false := Bool.and_false n.agent
    have hcountLive := hcount Scope.lives
    have hcountTotal : _ + n.agent.toNat = _ + n.agent.toNat := hcount Scope.agent
    have hcountLlm : _ + (!n.agent).toNat = _ + (!n.agent).toNat := hcount fun n => !n.agent
    rw [hbefore, hafter, Bool.toNat_false] at hcountLive
    rw [← hscopes] at hcountLive hcountTotal hcountLlm
    exact ⟨by omega, by omega, by omega, by omega, by omega, by omega⟩

/-- What the levels are read from. -/
def Scope.level (n : Scope) : Option NodeId × Nat × Bool := (n.parent, n.depth, n.agent)

/-- Every call but an admission leaves the scopes where they are. -/
theorem level_step {limits : Limits} {s t : Session} {l : Call}
    (h : step limits s l = some t)
    (hl : ∀ parent agent limit, l ≠ .admitChild parent agent limit) :
    t.ledger.scopes.map Scope.level = s.ledger.scopes.map Scope.level := by
  have hshift := shifts_of_step h
  cases hshift with
  | stay hplace _ _ _ =>
    have heq := congrArg (List.map fun place : Place =>
      (place.parent, place.depth, place.agent)) hplace
    rwa [List.map_map, List.map_map] at heq
  | admitted parent p agent budget hp hopen hlimit hscopes _ _ _ =>
    -- Only an admission makes a scope.
    exfalso
    have hlen : t.ledger.scopes.length = s.ledger.scopes.length + 1 := by
      rw [hscopes, List.length_append, List.length_singleton]
    rcases step_cases h with
      ⟨parent, agent, limit, id, rfl, -⟩ | ⟨node, e, m, r, -, hcall, -⟩ |
      ⟨x, charge, result, -, -, hcall, -⟩ | ⟨haccount, -⟩
    · exact hl parent agent limit rfl
    · have hsame := congrArg List.length (reserve_place hcall)
      simp only [List.length_map] at hsame
      omega
    · have hsame := congrArg List.length (settle_place hcall)
      simp only [List.length_map] at hsame
      omega
    · have hnew := haccount s.ledger.scopes.length
      rw [hscopes, List.getElem?_concat_length, List.getElem?_eq_none (Nat.le_refl _)] at hnew
      cases hnew
  | closed node n hn hscopes _ _ _ =>
    rw [hscopes]
    exact map_set_same hn rfl
  | ended node n hn _ hscopes _ _ _ =>
    rw [hscopes]
    exact map_set_same hn rfl

/-- Levels stay in order where they stay. -/
theorem levelled_of_level {limits : Limits} {s t : State} (h : Levelled limits s)
    (hlevel : t.scopes.map Scope.level = s.scopes.map Scope.level) : Levelled limits t := by
  have hget : ∀ i : NodeId, (t.scopes[i]?).map Scope.level = (s.scopes[i]?).map Scope.level := by
    intro i
    rw [← List.getElem?_map, ← List.getElem?_map, hlevel]
  -- Every scope was there before, with the same parent and depth.
  have hold : ∀ {i : NodeId} {n : Scope}, t.scopes[i]? = some n →
      ∃ n', s.scopes[i]? = some n' ∧ n'.parent = n.parent ∧ n'.depth = n.depth ∧
        n'.agent = n.agent := by
    intro i n hn
    have heq := hget i
    rw [hn, Option.map_some] at heq
    obtain ⟨n', hn', hsame⟩ := Option.map_eq_some_iff.mp heq.symm
    simp only [Scope.level, Prod.mk.injEq] at hsame
    exact ⟨n', hn', hsame⟩
  have hnew : ∀ {i : NodeId} {n' : Scope}, s.scopes[i]? = some n' →
      ∃ n, t.scopes[i]? = some n ∧ n.depth = n'.depth := by
    intro i n' hn'
    have heq := hget i
    rw [hn', Option.map_some] at heq
    obtain ⟨n, hn, hsame⟩ := Option.map_eq_some_iff.mp heq
    simp only [Scope.level, Prod.mk.injEq] at hsame
    exact ⟨n, hn, hsame.2.1⟩
  constructor
  · intro i n hn hnone
    obtain ⟨n', hn', hparent, hdepth, -⟩ := hold hn
    rw [← hdepth]
    exact h.root hn' (hparent.trans hnone)
  · intro i p n hn hp
    obtain ⟨n', hn', hparent, hdepth, hagent⟩ := hold hn
    obtain ⟨m', hm', heq⟩ := h.child hn' (hparent.trans hp)
    obtain ⟨m, hm, hmdepth⟩ := hnew hm'
    exact ⟨m, hm, by rw [← hdepth, heq, hmdepth, hagent]⟩
  · intro i n hn
    obtain ⟨n', hn', -, hdepth, -⟩ := hold hn
    rw [← hdepth]
    exact h.maxDepth hn'

theorem levelled_shifts {limits : Limits} {s t : State} (h : Levelled limits s)
    (hshift : Shifts limits s t) : Levelled limits t := by
  cases hshift with
  | stay hplace htotal hlive hllm =>
    refine levelled_of_level h ?_
    have heq := congrArg (List.map fun place : Place =>
      (place.parent, place.depth, place.agent)) hplace
    rwa [List.map_map, List.map_map] at heq
  | admitted parent p agent budget hp hopen hlimit hscopes htotal hlive hllm =>
    obtain ⟨hagent, -⟩ := exceededLimit_none hlimit
    have hkept : ∀ {i : NodeId} {n : Scope}, s.scopes[i]? = some n → t.scopes[i]? = some n := by
      intro i n hn
      rw [hscopes, List.getElem?_append_left (List.getElem?_eq_some_iff.mp hn).1]
      exact hn
    have hcases : ∀ {i : NodeId} {n : Scope}, t.scopes[i]? = some n →
        s.scopes[i]? = some n ∨
          n = freshScope (some parent) (p.depth + agent.toNat) agent budget := by
      intro i n hn
      rw [hscopes, List.getElem?_append, List.getElem?_singleton] at hn
      split at hn
      · exact Or.inl hn
      · split at hn
        · exact Or.inr (Option.some.inj hn).symm
        · cases hn
    constructor
    · intro i n hn hnone
      rcases hcases hn with hold | rfl
      · exact h.root hold hnone
      · cases hnone
    · intro i q n hn hq
      rcases hcases hn with hold | rfl
      · obtain ⟨m, hm, heq⟩ := h.child hold hq
        exact ⟨m, hkept hm, heq⟩
      · obtain rfl : parent = q := Option.some.inj hq
        exact ⟨p, hkept hp, rfl⟩
    · intro i n hn
      rcases hcases hn with hold | rfl
      · exact h.maxDepth hold
      · show p.depth + agent.toNat ≤ limits.maxDepth
        cases agent with
        | true => exact (hagent rfl).1
        | false => exact h.maxDepth hp
  | closed node n hn hscopes htotal hlive hllm =>
    refine levelled_of_level h ?_
    rw [hscopes]
    exact map_set_same hn rfl
  | ended node n hn halive hscopes htotal hllm hlive =>
    refine levelled_of_level h ?_
    rw [hscopes]
    exact map_set_same hn rfl

/-! ### Closed scopes -/

/-- A scope that was shut down, or whose admission was closed. -/
def State.Shut (s : State) (i : NodeId) : Prop := ∃ n, s.scopes[i]? = some n ∧ n.shut = true

/-- What is true of a scope's place, whether or not the scope is closed or ended,
    stays true of it. -/
theorem Shifts.keep {limits : Limits} {s t : State} (hshift : Shifts limits s t)
    {q : Scope → Bool} (hplace : ∀ n m : Scope, m.place = n.place → q n = true → q m = true)
    (hclosed : ∀ n : Scope, q n = true → q { n with admissionClosed := true } = true)
    (hended : ∀ n : Scope, q n = true → q { n with alive := false } = true)
    {i : NodeId} {n : Scope} (hn : s.scopes[i]? = some n) (hq : q n = true) :
    ∃ m, t.scopes[i]? = some m ∧ q m = true := by
  -- A scope that replaces another one keeps the property if the other one had it.
  have hset : ∀ {node : NodeId} {m m' : Scope}, s.scopes[node]? = some m →
      (q m = true → q m' = true) → t.scopes = s.scopes.set node m' →
      ∃ m, t.scopes[i]? = some m ∧ q m = true := by
    intro node m m' hm hkeep hscopes
    by_cases hnode : node = i
    · subst hnode
      obtain rfl : n = m := Option.some.inj (hn.symm.trans hm)
      refine ⟨m', ?_, hkeep hq⟩
      rw [hscopes, List.getElem?_set_self (List.getElem?_eq_some_iff.mp hn).1]
    · refine ⟨n, ?_, hq⟩
      rw [hscopes, List.getElem?_set_ne hnode]
      exact hn
  cases hshift with
  | stay hsame htotal hlive hllm =>
    have heq : (t.scopes[i]?).map Scope.place = (s.scopes[i]?).map Scope.place := by
      rw [← List.getElem?_map, ← List.getElem?_map, hsame]
    rw [hn, Option.map_some] at heq
    obtain ⟨m, hm, hmn⟩ := Option.map_eq_some_iff.mp heq
    exact ⟨m, hm, hplace n m hmn hq⟩
  | admitted parent p agent budget hp hopen hlimit hscopes htotal hlive hllm =>
    refine ⟨n, ?_, hq⟩
    rw [hscopes, List.getElem?_append_left (List.getElem?_eq_some_iff.mp hn).1]
    exact hn
  | closed node m hm hscopes htotal hlive hllm => exact hset hm (hclosed m) hscopes
  | ended node m hm halive hscopes htotal hllm hlive => exact hset hm (hended m) hscopes

/-- What is shut stays shut. -/
theorem Shifts.shut {limits : Limits} {s t : State} (hshift : Shifts limits s t) {i : NodeId}
    (h : s.Shut i) : t.Shut i := by
  obtain ⟨n, hn, hshut⟩ := h
  refine hshift.keep ?_ ?_ ?_ hn hshut
  · intro n m hsame hq
    have hflags := congrArg (fun place : Place => !place.alive || place.admissionClosed) hsame
    exact hflags.trans hq
  · intro n _
    exact Bool.or_true _
  · intro n _
    rfl

/-- What is ended stays ended. -/
theorem Shifts.dead {limits : Limits} {s t : State} (hshift : Shifts limits s t) {i : NodeId}
    {n : Scope} (hn : s.scopes[i]? = some n) (hdead : n.alive = false) :
    ∃ m, t.scopes[i]? = some m ∧ m.alive = false := by
  have hkeep := hshift.keep (q := fun m => !m.alive) ?_ ?_ ?_ hn (by rw [hdead]; rfl)
  · obtain ⟨m, hm, hq⟩ := hkeep
    exact ⟨m, hm, by simpa using hq⟩
  · intro n m hsame hq
    have hflag := congrArg (fun place : Place => !place.alive) hsame
    exact hflag.trans hq
  · intro n hq
    exact hq
  · intro n _
    rfl

/-- No admission below a shut scope succeeds. -/
theorem State.Shut.admits {limits : Limits} {s t : State} {i : NodeId} (h : s.Shut i)
    {agent : Bool} {limit : Option Nat} {result : Except RecursionError NodeId}
    (hcall : admitChild limits s i agent limit = some (t, result)) :
    t = s ∧ ∃ e, result = .error e := by
  cases result with
  | error e => exact ⟨admitChild_error hcall, e, rfl⟩
  | ok id =>
    obtain ⟨n, hn, hshut⟩ := h
    obtain ⟨p, _, hp, halive, hclosed, -⟩ := admitChild_ok hcall
    obtain rfl : n = p := Option.some.inj (hn.symm.trans hp)
    rw [Scope.shut, halive, hclosed] at hshut
    cases hshut

/-- No reservation for a shut scope succeeds. -/
theorem State.Shut.reserves {s t : State} {i : NodeId} (h : s.Shut i) {e m : Nat}
    {result : Except String Reservation} (hcall : reserve s i e m = some (t, result)) :
    t = s ∧ ∃ e, result = .error e := by
  cases result with
  | error e => exact ⟨reserve_error hcall, e, rfl⟩
  | ok r =>
    obtain ⟨n, hn, hshut⟩ := h
    obtain ⟨p, _, hp, halive, hclosed, -⟩ := reserve_ok hcall
    obtain rfl : n = p := Option.some.inj (hn.symm.trans hp)
    rw [Scope.shut, halive, hclosed] at hshut
    cases hshut

/-- Both closing calls shut their scope. -/
theorem shut_of_closeAdmission {s t : State} {node : NodeId} (h : closeAdmission s node = some t) :
    t.Shut node := by
  unfold closeAdmission at h
  split at h
  · cases h
  · next n hn =>
    obtain rfl := Option.some.inj h
    refine ⟨{ n with admissionClosed := true }, ?_, Bool.or_true _⟩
    exact List.getElem?_set_self (List.getElem?_eq_some_iff.mp hn).1

theorem shut_of_shutdown {s t : State} {node : NodeId} (h : shutdown s node = some t) :
    t.Shut node := by
  obtain ⟨n, hn, ⟨hended, rfl⟩ | ⟨-, hscopes, -⟩⟩ := shutdown_cases h
  · refine ⟨n, hn, ?_⟩
    rw [Scope.shut, hended]
    rfl
  · refine ⟨{ n with alive := false }, ?_, rfl⟩
    rw [hscopes, List.getElem?_set_self (List.getElem?_eq_some_iff.mp hn).1]

/-- A known scope can always be shut down: its slot was counted. -/
theorem shutdown_isSome {limits : Limits} {s : State} (h : Tallied limits s) {node : NodeId}
    (hnode : node < s.scopes.length) : ∃ t, shutdown s node = some t := by
  have hn := List.getElem?_eq_getElem hnode
  unfold shutdown
  rw [hn]
  simp only
  split
  · next halive =>
    split
    · next hagent =>
      -- An alive agent is one of those counted.
      have hpos : 0 < s.scopes.countP Scope.lives := by
        refine List.countP_pos_iff.mpr ⟨_, List.getElem_mem hnode, ?_⟩
        rw [Scope.lives, halive, hagent]
        rfl
      have hle : 1 ≤ s.live := by
        rw [h.live]
        exact hpos
      rw [checkedSub_of_le hle]
      exact ⟨_, rfl⟩
    · exact ⟨_, rfl⟩
  · exact ⟨_, rfl⟩

/-! ### The admission law -/

theorem tallied_init {limits : Limits} {fits : Nat → Bool} (h : limits.validate fits = .ok ()) :
    Tallied limits (initial limits) := by
  -- Validated limits leave room for the root.
  have hcounts : 0 ∉ limits.counts := by
    intro hzero
    unfold Limits.validate at h
    rw [if_pos hzero] at h
    cases h
  have hlive : limits.maxAgentsLive ≠ 0 := fun hzero =>
    hcounts (by rw [Limits.counts, hzero]; simp)
  have htotal : limits.maxAgentsTotal ≠ 0 := fun hzero =>
    hcounts (by rw [Limits.counts, hzero]; simp)
  exact ⟨rfl, rfl, rfl, Nat.pos_of_ne_zero hlive, Nat.pos_of_ne_zero htotal, Nat.zero_le _⟩

theorem levelled_init (limits : Limits) : Levelled limits (initial limits) := by
  have hroot : ∀ {i : NodeId} {n : Scope}, (initial limits).scopes[i]? = some n →
      n = freshScope none 0 true limits.budgetTokens := by
    intro i n hn
    exact List.mem_singleton.mp (List.mem_of_getElem? hn)
  constructor
  · intro i n hn _
    rw [hroot hn]
    rfl
  · intro i p n hn hp
    rw [hroot hn] at hp
    cases hp
  · intro i n hn
    rw [hroot hn]
    exact Nat.zero_le _

theorem tallied_of_reachable {fits : Nat → Bool} {limits : Limits}
    (hlimits : limits.validate fits = .ok ()) {s : Session}
    (h : (sessions limits).Reachable s) : Tallied limits s.ledger :=
  LTS.System.invariant (P := fun u : Session => Tallied limits u.ledger) (tallied_init hlimits)
    (fun _ _ _ hs _ hstep => tallied_shifts hs (shifts_of_step hstep)) s h

theorem levelled_of_reachable {limits : Limits} {s : Session}
    (h : (sessions limits).Reachable s) : Levelled limits s.ledger :=
  LTS.System.invariant (P := fun u : Session => Levelled limits u.ledger) (levelled_init limits)
    (fun _ _ _ hs _ hstep => levelled_shifts hs (shifts_of_step hstep)) s h

/-- What every state of a session satisfies, and what follows from there. -/
structure Admission (limits : Limits) (s : Session) : Prop where
  tallied : Tallied limits s.ledger
  levelled : Levelled limits s.ledger
  /-- A shutdown never underflows the counter, however often it is repeated. -/
  shutdowns : ∀ node < s.ledger.scopes.length, ∃ t, shutdown s.ledger node = some t
  /-- Closing calls shut their scope. -/
  shuts : ∀ {node : NodeId} {t : Session},
    step limits s (.closeAdmission node) = some t ∨ step limits s (.shutdown node) = some t →
    t.ledger.Shut node
  /-- From then on nothing is admitted below it or reserved for it. -/
  shut : ∀ {i : NodeId} {ls : List Call} {t : Session}, s.ledger.Shut i →
    (sessions limits).run s ls = some t →
    (∀ {agent limit result u}, admitChild limits t.ledger i agent limit = some (u, result) →
      ∃ e, result = .error e) ∧
    (∀ {e m result u}, reserve t.ledger i e m = some (u, result) → ∃ e, result = .error e)
  /-- A refused call leaves the whole state as it was. -/
  refusals : (∀ {parent agent limit u e},
      admitChild limits s.ledger parent agent limit = some (u, .error e) → u = s.ledger) ∧
    (∀ {node e m u msg}, reserve s.ledger node e m = some (u, .error msg) → u = s.ledger)

theorem ledger_admission {fits : Nat → Bool} {limits : Limits}
    (hlimits : limits.validate fits = .ok ()) {s : Session}
    (h : (sessions limits).Reachable s) : Admission limits s := by
  have htallied := tallied_of_reachable hlimits h
  have hlevelled := levelled_of_reachable h
  refine ⟨htallied, hlevelled, ?_, ?_, ?_, ?_⟩
  · intro node hnode
    exact shutdown_isSome htallied hnode
  · intro node t hstep
    rcases hstep with hstep | hstep
    · obtain ⟨ledger, hcall, rfl⟩ := Option.map_eq_some_iff.mp hstep
      exact shut_of_closeAdmission hcall
    · obtain ⟨ledger, hcall, rfl⟩ := Option.map_eq_some_iff.mp hstep
      exact shut_of_shutdown hcall
  · intro i ls t hshut hrun
    have hstep : ∀ (u : Session) (l : Call) (v : Session), u.ledger.Shut i →
        (sessions limits).step u l = some v → v.ledger.Shut i := by
      intro u l v hu hnext
      exact (shifts_of_step hnext).shut hu
    have hkept := (sessions limits).run_invariant hstep hshut hrun
    refine ⟨?_, ?_⟩
    · intro agent limit result u hcall
      exact (hkept.admits hcall).2
    · intro e m result u hcall
      exact (hkept.reserves hcall).2
  · refine ⟨?_, ?_⟩
    · intro parent agent limit u e hcall
      exact admitChild_error hcall
    · intro node e m u msg hcall
      exact reserve_error hcall

/-- A child is admitted and ended twice over, with a leaf below the root. -/
def endedCalls : List Call :=
  [.admitChild 0 true none, .admitChild 0 false none, .shutdown 1, .shutdown 1,
    .closeAdmission 0]

theorem ledger_admission_ended : ∃ s,
    (sessions .default).run (sessions .default).init endedCalls = some s ∧
      (s.ledger.live, s.ledger.total, s.ledger.llm) = (1, 2, 1) ∧ s.ledger.Shut 1 ∧
      Admission .default s := by
  have hrun : ((sessions .default).run (sessions .default).init endedCalls).map (fun s =>
      ((s.ledger.live, s.ledger.total, s.ledger.llm), (s.ledger.scopes[1]?).map Scope.shut)) =
      some ((1, 2, 1), some true) := by decide +kernel
  obtain ⟨s, hs, heq⟩ := Option.map_eq_some_iff.mp hrun
  simp only [Prod.mk.injEq] at heq
  obtain ⟨n, hn, hshut⟩ := Option.map_eq_some_iff.mp heq.2
  have hlimits : Limits.default.validate (fun _ => true) = .ok () :=
    Limits.validate_default fun _ _ => rfl
  exact ⟨s, hs, by rw [heq.1.1, heq.1.2.1, heq.1.2.2], ⟨n, hn, hshut⟩,
    ledger_admission hlimits (LTS.System.reachable_of_run hs)⟩

end Kyora.Ledger
