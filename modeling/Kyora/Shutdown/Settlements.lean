import Kyora.Shutdown.Records
import Kyora.Ledger.Budget
import Kyora.Trace.Replay

/-! # Records of settlements

  A settled attempt is recorded once at most, and its record says what the
  ledger settled it for. An attempt whose guard is dropped has no record.
-/

namespace Kyora.Shutdown

open Attempts (Config Call Guard)
open Trace (TraceEvent AttemptEnd settlements)

/-! ### Records to be written -/

/-- The attempt is settled, and its record is still to be written. -/
def isUnwritten : Attempts.Pc → Bool
  | .settled _ _ | .recording _ _ => true
  | _ => false

/-- A settled reservation is recorded with the usage the ledger recorded. -/
theorem spent_attemptEnd {node attempt tokens : Nat} {result : Attempts.Result}
    {settlement : Ledger.Settlement} (payload : AttemptEnd)
    (h : settlement.charged = result.charge.charged tokens) :
    (attemptEnd node attempt result settlement payload).spent = result.charge.recorded tokens := by
  cases result with
  | response usage => rfl
  | failure error =>
    show (⟨settlement.charged, 0, 0, 0⟩ : Usage) = _
    rw [h]
    show (⟨(Ledger.Charge.failed error.charge).charged tokens, 0, 0, 0⟩ : Usage) =
      (Ledger.Charge.failed error.charge).recorded tokens
    cases error.charge with
    | zero => rfl
    | reserved => rfl

theorem settlements_append (es es' : List TraceEvent) :
    settlements (es ++ es') = settlements es ++ settlements es' := List.filterMap_append

/-- A call writes the record of its settlement when it stands there. -/
theorem settlements_emitted (s : State) (l : Attempts.Label) :
    settlements (s.emitted l) = [] ∨ ∃ k c result panicked e, l = .emitted k ∧
      s.attempts.calls[k]? = some c ∧ c.pc = .recording result panicked ∧
      s.ends.lookup k = some e ∧ settlements (s.emitted l) = [e] := by
  cases l with
  | emitted k =>
    unfold State.emitted
    simp only
    split
    · exact Or.inl rfl
    · next c hc =>
      split
      · exact Or.inl rfl
      · next result panicked hpc =>
        cases he : s.ends.lookup k with
        | none => exact Or.inl rfl
        | some e => exact Or.inr ⟨k, c, result, panicked, e, rfl, hc, hpc, he, rfl⟩
      · exact Or.inl rfl
  | _ => exact Or.inl rfl

/-- Only `.settle` moves a call whose request is over. -/
theorem finished_stuck {cfg : Config} {s t : Attempts.State} {l : Attempts.Label} {k : Nat}
    {c : Call} {result : Attempts.Result} {panicked : Bool} (hl : isMove l = true)
    (hk : l.callId = some k) (hc : s.calls[k]? = some c) (hpc : c.pc = .finished result panicked) :
    Attempts.step cfg s l ≠ some t := by
  intro h
  cases l with
  | ledger l => cases hl
  | call node maxTokens => cases hl
  | refused j => cases hl
  | settle j => cases hl
  | _ =>
    obtain rfl := Option.some.inj hk
    simp [Attempts.step, Attempts.stepEmitted, Attempts.stepRetry, Attempts.stepLeave, hc, hpc,
      Attempts.Pc.isCancellable, Attempts.Pc.isAwait] at h

/-- A record is written by a call that stands there, and only a call that
    settled before has one to write. -/
theorem unwritten_of_move {cfg : Config} {s t : Attempts.State} {l : Attempts.Label}
    (hl : isMove l = true) (h : Attempts.step cfg s l = some t) :
    ∃ k c d, l.callId = some k ∧ s.calls[k]? = some c ∧ t.calls = s.calls.set k d ∧
      d.node = c.node ∧ (isUnwritten d.pc = true → isUnwritten c.pc = true ∧ l ≠ .emitted k) := by
  obtain ⟨k, hk, c, u, d, hc, hmove, rfl⟩ := storedAt_of_attempt (Or.inl hl) h
  have hcalls : (u.setCall k d).calls = s.calls.set k d := by
    rw [← hmove.calls]
    rfl
  refine ⟨k, c, d, hk, hc, hcalls, call_node hmove, ?_⟩
  intro hd
  cases hmove with
  | settled result panicked g hpc hguard hsettle =>
    exact absurd h (finished_stuck hl hk hc hpc)
  | released result panicked hpc =>
    refine ⟨by rw [hpc]; rfl, ?_⟩
    rintro rfl
    simp [Attempts.step, Attempts.stepEmitted, hc, hpc] at h
  | cancelled hpc => cases hd
  | retried error jitter delay pc hpc hto hdelay =>
    rcases hto with rfl | rfl
    · cases hd
    · cases hd
  | droppedGuard exit g hpc hguard hsettle =>
    have hleaving : isUnwritten c.pc = true := hd
    rw [hpc] at hleaving
    cases hleaving
  | droppedPermit exit hpc hguard hpermit =>
    have hleaving : isUnwritten c.pc = true := hd
    rw [hpc] at hleaving
    cases hleaving
  | _ => cases hd

/-! ### The history of settlements -/

/-- The record says what the ledger settled. -/
def Booked (s : State) (e : AttemptEnd) : Prop :=
  ∃ x ∈ s.attempts.session.settled, x.issued.reservation.id = e.attempt ∧
    x.issued.node = e.node ∧ x.usage = e.spent

/-- Attempts and their records. -/
structure Settlements (s : State) : Prop where
  booked : ∀ e ∈ settlements s.trace, Booked s e
  nodup : ((settlements s.trace).map AttemptEnd.attempt).Nodup
  pending : ∀ (k : Nat) (c : Call), s.attempts.calls[k]? = some c → isUnwritten c.pc = true →
    ∃ e, s.ends.lookup k = some e ∧ e.node = c.node ∧ Booked s e ∧
      e.attempt ∉ (settlements s.trace).map AttemptEnd.attempt
  distinct : ∀ (k k' : Nat) (c c' : Call) (e e' : AttemptEnd),
    s.attempts.calls[k]? = some c → isUnwritten c.pc = true →
    s.attempts.calls[k']? = some c' → isUnwritten c'.pc = true →
    s.ends.lookup k = some e → s.ends.lookup k' = some e' → e.attempt = e'.attempt → k = k'

theorem settled_mono {limits : Limits} {s t : Ledger.Session} {l : Ledger.Call}
    (h : Ledger.step limits s l = some t) {x : Ledger.Settled} (hx : x ∈ s.settled) :
    x ∈ t.settled := by
  rcases Ledger.step_cases h with
    ⟨_, _, _, _, -, -, -, hset⟩ | ⟨_, _, _, _, -, -, -, hset⟩ | ⟨_, _, _, -, -, -, -, hset⟩ |
    ⟨-, -, -, -, hset⟩
  · rw [hset]
    exact hx
  · rw [hset]
    exact hx
  · rw [hset]
    exact List.mem_append_left _ hx
  · rw [hset]
    exact hx

theorem Booked.next {cfg : Config} {s t : State} (hm : Moved cfg s t) {e : AttemptEnd}
    (h : Booked s e) : Booked t e := by
  obtain ⟨x, hx, hbooked⟩ := h
  refine ⟨x, ?_, hbooked⟩
  rcases session_of_moved hm with heq | ⟨l, hl⟩
  · rw [heq]
    exact hx
  · exact settled_mono hl hx

/-- A step that writes no record of a settlement and makes none keeps the history. -/
theorem Settlements.quiet {cfg : Config} {s t : State} (h : Settlements s) (hm : Moved cfg s t)
    (htrace : settlements t.trace = settlements s.trace) (hends : t.ends = s.ends)
    (hcalls : ∀ (k : Nat) (c' : Call), t.attempts.calls[k]? = some c' →
      isUnwritten c'.pc = true → ∃ c, s.attempts.calls[k]? = some c ∧
        isUnwritten c.pc = true ∧ c'.node = c.node) : Settlements t := by
  constructor
  · intro e he
    rw [htrace] at he
    exact (h.booked e he).next hm
  · rw [htrace]
    exact h.nodup
  · intro k c' hc' hpc'
    obtain ⟨c, hc, hpc, hnode⟩ := hcalls k c' hc' hpc'
    obtain ⟨e, he, hsame, hbooked, hnew⟩ := h.pending k c hc hpc
    rw [hends, htrace, hnode]
    exact ⟨e, he, hsame, hbooked.next hm, hnew⟩
  · intro k k' c c' e e' hc hpc hc' hpc' he he' heq
    rw [hends] at he he'
    obtain ⟨d, hd, hdpc, -⟩ := hcalls k c hc hpc
    obtain ⟨d', hd', hdpc', -⟩ := hcalls k' c' hc' hpc'
    exact h.distinct k k' d d' e e' hd hdpc hd' hdpc' he he' heq

/-- A call goes on, and may write the record of its settlement. -/
theorem Settlements.attempt {cfg : Config} {s : State} {l : Attempts.Label}
    {a : Attempts.State} (h : Settlements s) (hl : isMove l = true)
    (ha : Attempts.step cfg s.attempts l = some a) :
    Settlements { s with attempts := a, trace := s.trace ++ s.emitted l } := by
  have hm : Moved cfg s { s with attempts := a, trace := s.trace ++ s.emitted l } :=
    .attempt l a hl ha
  obtain ⟨k, c, d, hk, hc, hcalls, hnode, hd⟩ := unwritten_of_move hl ha
  have hold : ∀ (j : Nat) (c' : Call), a.calls[j]? = some c' → isUnwritten c'.pc = true →
      ∃ c, s.attempts.calls[j]? = some c ∧ isUnwritten c.pc = true ∧ c'.node = c.node := by
    intro j c' hc' hpc'
    rw [hcalls] at hc'
    rcases Pool.getElem?_set_cases hc hc' with ⟨-, hsame⟩ | ⟨rfl, rfl⟩
    · exact ⟨c', hsame, hpc', rfl⟩
    · exact ⟨c, hc, (hd hpc').1, hnode⟩
  rcases settlements_emitted s l with hnone | ⟨k', c', result, panicked, e, rfl, hc', hpc, he, hone⟩
  · refine h.quiet hm ?_ rfl hold
    rw [settlements_append, hnone, List.append_nil]
  · obtain rfl := Option.some.inj hk
    obtain rfl := Option.some.inj (hc.symm.trans hc')
    have hcpc : isUnwritten c.pc = true := by
      rw [hpc]
      rfl
    obtain ⟨e', he', hsame, hbooked, hnew⟩ := h.pending _ c hc hcpc
    obtain rfl := Option.some.inj (he.symm.trans he')
    have htrace : settlements (s.trace ++ s.emitted (.emitted k')) =
        settlements s.trace ++ [e] := by rw [settlements_append, hone]
    -- Of the calls with a record to write, this one is done.
    have hother : ∀ (j : Nat) (d' : Call), a.calls[j]? = some d' → isUnwritten d'.pc = true →
        j ≠ k' := by
      intro j d' hd' hpc' hj
      subst hj
      rw [hcalls, List.getElem?_set_self (List.getElem?_eq_some_iff.mp hc).1] at hd'
      obtain rfl := Option.some.inj hd'
      exact (hd hpc').2 rfl
    constructor
    · intro x hx
      rw [htrace] at hx
      rcases List.mem_append.mp hx with hx | hx
      · exact (h.booked x hx).next hm
      · rw [List.mem_singleton.mp hx]
        exact hbooked.next hm
    · rw [htrace, List.map_append]
      exact List.nodup_append_comm.mp (List.nodup_cons.mpr ⟨hnew, h.nodup⟩)
    · intro j d' hd' hpc'
      obtain ⟨c', hc', hcpc', hnode'⟩ := hold j d' hd' hpc'
      obtain ⟨x, hx, hxnode, hxbooked, hxnew⟩ := h.pending j c' hc' hcpc'
      refine ⟨x, hx, hxnode.trans hnode'.symm, hxbooked.next hm, ?_⟩
      rw [htrace, List.map_append]
      intro hmem
      rcases List.mem_append.mp hmem with hmem | hmem
      · exact hxnew hmem
      · exact hother j d' hd' hpc'
          (h.distinct j _ c' c x e hc' hcpc' hc hcpc hx he (List.mem_singleton.mp hmem))
    · intro j j' d₁ d₂ e₁ e₂ hd₁ hpc₁ hd₂ hpc₂ he₁ he₂ heq
      obtain ⟨c₁, hc₁, hcpc₁, -⟩ := hold j d₁ hd₁ hpc₁
      obtain ⟨c₂, hc₂, hcpc₂, -⟩ := hold j' d₂ hd₂ hpc₂
      exact h.distinct j j' c₁ c₂ e₁ e₂ hc₁ hcpc₁ hc₂ hcpc₂ he₁ he₂ heq

/-- The settlement a call makes, as the ledger and the record have it. -/
theorem settles_of_moved {cfg : Config} {s : State} {k : Nat} {c : Call}
    {result : Attempts.Result} {panicked : Bool} {g : Guard} {ledger : Ledger.State}
    {settlement : Ledger.Settlement} {a : Attempts.State}
    (hledger : (Ledger.sessions cfg.limits).Reachable s.attempts.session)
    (hc : s.attempts.calls[k]? = some c) (hpc : c.pc = .finished result panicked)
    (hg : c.guard = some g)
    (hsettle : Ledger.settle s.ledger g.reservation result.charge = some (ledger, settlement))
    (ha : Attempts.step cfg s.attempts (.settle k) = some a) :
    a.calls = s.attempts.calls.set k { c with guard := none, pc := .settled result panicked } ∧
    Ledger.Issued.mk c.node g.reservation ∈ s.attempts.session.outstanding ∧
    settlement.charged = result.charge.charged g.reservation.tokens ∧
    a.session.settled = s.attempts.session.settled ++ [⟨⟨c.node, g.reservation⟩,
      settlement.charged, result.charge.recorded g.reservation.tokens⟩] := by
  have hstep : (s.attempts.settle cfg c g result.charge).map (fun u => u.setCall k
      { c with guard := none, pc := .settled result panicked }) = some a := by
    rw [← ha]
    simp [Attempts.step, hc, hpc, hg]
  obtain ⟨u, hu, rfl⟩ := Option.map_eq_some_iff.mp hstep
  have hsettles := Attempts.settles_of_settle hu
  obtain ⟨settlement', hcall, hset⟩ := hsettles.settled
  have hpair := Option.some.inj (hsettle.symm.trans hcall)
  obtain rfl : settlement = settlement' := congrArg Prod.snd hpair
  obtain ⟨attempt, _, _, _, hfind, -, -, -, -, -, -, -, -, -, hcharged, -⟩ :=
    Ledger.settle_ok hcall
  -- The attempt the ledger finds is the reservation that is settled.
  obtain rfl : attempt = Ledger.Issued.attempt ⟨c.node, g.reservation⟩ :=
    Option.some.inj (hfind.symm.trans
      ((Ledger.matched_of_reachable hledger).find?_attempt hsettles.held))
  refine ⟨?_, hsettles.held, hcharged, hset⟩
  show u.calls.set k _ = _
  rw [hsettles.calls]

theorem lookup_filter_ne {xs : List (Nat × AttemptEnd)} {k j : Nat} (h : j ≠ k) :
    (xs.filter (·.1 != k)).lookup j = xs.lookup j := by
  induction xs with
  | nil => rfl
  | cons x xs ih =>
    obtain ⟨i, e⟩ := x
    rw [List.filter_cons, List.lookup_cons]
    by_cases hik : i = k
    · subst hik
      rw [if_neg (by simp), ih, beq_false_of_ne h]
    · rw [if_pos (by simpa using hik), List.lookup_cons, ih]

/-- A call settles its attempt and keeps the record for it. -/
theorem Settlements.settle {cfg : Config} {s : State} {k : Nat} {c : Call}
    {result : Attempts.Result} {panicked : Bool} {g : Guard} {ledger : Ledger.State}
    {settlement : Ledger.Settlement} {payload : AttemptEnd} {a : Attempts.State}
    (h : Settlements s) (hledger : (Ledger.sessions cfg.limits).Reachable s.attempts.session)
    (hc : s.attempts.calls[k]? = some c) (hpc : c.pc = .finished result panicked)
    (hg : c.guard = some g)
    (hsettle : Ledger.settle s.ledger g.reservation result.charge = some (ledger, settlement))
    (ha : Attempts.step cfg s.attempts (.settle k) = some a) :
    Settlements { s with
      attempts := a
      ends := (k, attemptEnd c.node g.reservation.id result settlement payload) ::
        s.ends.filter (·.1 != k) } := by
  have hm : Moved cfg s { s with
      attempts := a
      ends := (k, attemptEnd c.node g.reservation.id result settlement payload) ::
        s.ends.filter (·.1 != k) } :=
    .settle k c result panicked g ledger settlement payload a hc hpc hg hsettle ha
  obtain ⟨hcalls, hheld, hcharged, hset⟩ := settles_of_moved hledger hc hpc hg hsettle ha
  -- What was booked before has other ids than the reservation settled now.
  have hfresh : ∀ e, Booked s e → e.attempt ≠ g.reservation.id := by
    rintro e ⟨x, hx, hid, -⟩ heq
    have hnodup := (Ledger.once_of_reachable hledger).nodup
    rw [List.map_append] at hnodup
    exact List.disjoint_of_nodup_append hnodup (List.mem_map.mpr ⟨_, hheld, rfl⟩)
      (List.mem_map.mpr ⟨x.issued, List.mem_map_of_mem hx, hid.trans heq⟩)
  have hnew : Booked { s with
      attempts := a
      ends := (k, attemptEnd c.node g.reservation.id result settlement payload) ::
        s.ends.filter (·.1 != k) }
      (attemptEnd c.node g.reservation.id result settlement payload) := by
    refine ⟨⟨⟨c.node, g.reservation⟩, settlement.charged,
      result.charge.recorded g.reservation.tokens⟩, ?_, rfl, rfl,
      (spent_attemptEnd payload hcharged).symm⟩
    show _ ∈ a.session.settled
    rw [hset]
    exact List.mem_append_right _ (List.mem_singleton.mpr rfl)
  have hold : ∀ (j : Nat) (c' : Call), j ≠ k → a.calls[j]? = some c' →
      s.attempts.calls[j]? = some c' := by
    intro j c' hjk hc'
    rwa [hcalls, List.getElem?_set_ne (Ne.symm hjk)] at hc'
  have hlookup : ∀ j : Nat, j ≠ k →
      List.lookup j ((k, attemptEnd c.node g.reservation.id result settlement payload) ::
        s.ends.filter (·.1 != k)) = s.ends.lookup j := by
    intro j hjk
    rw [List.lookup_cons, beq_false_of_ne hjk]
    exact lookup_filter_ne hjk
  have hself : List.lookup k ((k, attemptEnd c.node g.reservation.id result settlement payload) ::
      s.ends.filter (·.1 != k)) =
        some (attemptEnd c.node g.reservation.id result settlement payload) := by
    rw [List.lookup_cons, beq_self_eq_true]
  constructor
  · intro e he
    exact (h.booked e he).next hm
  · exact h.nodup
  · intro j c' hc' hpc'
    by_cases hjk : j = k
    · subst hjk
      refine ⟨_, hself, ?_, hnew, ?_⟩
      · have hcall : a.calls[j]? = some c' := hc'
        rw [hcalls, List.getElem?_set_self (List.getElem?_eq_some_iff.mp hc).1] at hcall
        rw [← Option.some.inj hcall]
        rfl
      · intro hmem
        obtain ⟨e, he, heq⟩ := List.mem_map.mp hmem
        exact hfresh e (h.booked e he) heq
    · obtain ⟨e, he, hnode, hbooked, hunwritten⟩ := h.pending j c' (hold j c' hjk hc') hpc'
      exact ⟨e, (hlookup j hjk).trans he, hnode, hbooked.next hm, hunwritten⟩
  · intro j j' d d' e e' hd hdpc hd' hdpc' he he' heq
    have hbooked : ∀ {i : Nat} {f : Call} {x : AttemptEnd}, i ≠ k → a.calls[i]? = some f →
        isUnwritten f.pc = true → s.ends.lookup i = some x → x.attempt ≠ g.reservation.id := by
      intro i f x hik hf hfpc hx
      obtain ⟨y, hy, -, hb, -⟩ := h.pending i f (hold i f hik hf) hfpc
      obtain rfl := Option.some.inj (hx.symm.trans hy)
      exact hfresh x hb
    by_cases hjk : j = k
    · by_cases hjk' : j' = k
      · rw [hjk, hjk']
      · subst hjk
        obtain rfl := Option.some.inj (he.symm.trans hself)
        exact absurd heq.symm (hbooked hjk' hd' hdpc' ((hlookup j' hjk').symm.trans he'))
    · by_cases hjk' : j' = k
      · subst hjk'
        obtain rfl := Option.some.inj (he'.symm.trans hself)
        exact absurd heq (hbooked hjk hd hdpc ((hlookup j hjk).symm.trans he))
      · exact h.distinct j j' d d' e e' (hold j d hjk hd) hdpc (hold j' d' hjk' hd') hdpc'
          ((hlookup j hjk).symm.trans he) ((hlookup j' hjk').symm.trans he') heq

theorem settlements_step {cfg : Config} {s t : State}
    (hledger : (Ledger.sessions cfg.limits).Reachable s.attempts.session) (h : Settlements s)
    (hm : Moved cfg s t) : Settlements t := by
  have hsame : t.attempts.calls = s.attempts.calls → ∀ (k : Nat) (c' : Call),
      t.attempts.calls[k]? = some c' → isUnwritten c'.pc = true →
      ∃ c, s.attempts.calls[k]? = some c ∧ isUnwritten c.pc = true ∧ c'.node = c.node := by
    intro hcalls k c' hc' hpc'
    exact ⟨c', hcalls ▸ hc', hpc', rfl⟩
  have hsnoc : ∀ {e : TraceEvent}, settlements [e] = [] →
      settlements (s.trace ++ [e]) = settlements s.trace := by
    intro e he
    rw [settlements_append, he, List.append_nil]
  have hm' := hm
  cases hm with
  | attempt l a hl ha => exact h.attempt hl ha
  | settle k c result panicked g ledger settlement payload a hc hpc hg hsettle ha =>
    exact h.settle hledger hc hpc hg hsettle ha
  | note event hevent =>
    refine h.quiet hm' (hsnoc ?_) rfl (hsame rfl)
    cases event with
    | attemptEnd settled => cases hevent
    | _ => rfl
  | started i n payload hn hpc => exact h.quiet hm' (hsnoc rfl) rfl (hsame rfl)
  | called i n maxTokens hn hpc hidle =>
    refine h.quiet hm' rfl rfl ?_
    intro k c' hc' hpc'
    rcases Pool.getElem?_snoc hc' with hold | ⟨-, rfl⟩
    · exact ⟨c', hold, hpc', rfl⟩
    · cases hpc'
  | recorded i n outcome hn hpc => exact h.quiet hm' (hsnoc rfl) rfl (hsame rfl)
  | _ => exact h.quiet hm' rfl rfl (hsame rfl)

theorem settlements_of_reachable {cfg : Config} {model : String} {s : State}
    (h : (system cfg model).Reachable s) : Settlements s := by
  refine LTS.System.invariant_with (P := Settlements) (fun _ hs => ledger_reachable hs) ?_
    (fun _ _ _ hl _ hs _ hstep => settlements_step hl hs (moved_of_step hstep)) s h
  refine ⟨fun e he => (nomatch he), List.nodup_nil, ?_, ?_⟩
  · intro k c hc
    cases hc
  · intro k k' c c' e e' hc
    cases hc

end Kyora.Shutdown
