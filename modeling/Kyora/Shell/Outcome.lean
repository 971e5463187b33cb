import Kyora.Shell.Contained

/-! # How shell calls end

  A call that is cancelled or past its deadline ends after a few steps of its
  own, whatever its processes and the other calls do: a pump or a wait that is
  still going is cut, and the shell, being killed, can be reaped.

  * `Call.left`: the steps that a call has left.
  * `calls_end`: these steps, and that there is always one to take.
-/

namespace Kyora.Shell

open Groups (Custody Table Holding Act Stage)

/-! ### The steps of a call -/

/-- A step that a call takes itself, but for reading on. -/
def Label.isOwn (k : Nat) : Label → Bool
  | .register j => j == k
  | .eof j _ => j == k
  | .readFails j _ _ => j == k
  | .cut j _ => j == k
  | .poll j => j == k
  | .waitFails j _ => j == k
  | .kill j => j == k
  | .join j => j == k
  | .close j => j == k
  | .drop j => j == k
  | .remove j => j == k
  | _ => false

def Drain.left (drain : Drain) : Nat := drain.ended.isNone.toNat

def Wait.left : Wait → Nat
  | .pending => 2
  | .killed _ => 1
  | .exited _ => 1
  | .done _ _ => 0

/-- The steps that a call has left. -/
def Call.left (call : Call) : Stage → Nat
  | .started => 8
  | .registered =>
    if call.outcome.isSome then 2 else 3 + call.stdout.left + call.stderr.left + call.wait.left
  | .closing => 1
  | .released => 0

section

variable {seconds : Json → Except String Nat} {config : Config} {s t : State} {l : Label}
  {k : Nat} {call call' : Call} {h : Holding} {a : Act}

theorem Drain.left_le (drain : Drain) : drain.left ≤ 1 := Bool.toNat_le _

theorem Wait.left_le (wait : Wait) : wait.left ≤ 2 := by
  cases wait <;> simp [Wait.left]

theorem Call.left_registered_le (call : Call) : call.left .registered ≤ 7 := by
  have hstdout := call.stdout.left_le
  have hstderr := call.stderr.left_le
  have hwait := call.wait.left_le
  simp only [Call.left]
  split <;> omega

theorem Call.left_le (call : Call) (stage : Stage) : call.left stage ≤ 8 := by
  cases stage with
  | started => exact Nat.le_refl 8
  | registered => exact Nat.le_succ_of_le call.left_registered_le
  | closing => exact (by decide : 1 ≤ 8)
  | released => exact Nat.zero_le 8

/-- A running call that ends a pump has a step less. -/
theorem Call.left_drained {pipe : Pipe} {drained : Drained} (hnone : call.outcome = none)
    (hreading : (call.pipe pipe).ended = none) :
    (call.setPipe { call.pipe pipe with ended := some drained } pipe).left .registered + 1 =
      call.left .registered := by
  cases pipe with
  | stdout =>
    have hleft : call.stdout.left = 1 := by
      show (call.pipe .stdout).ended.isNone.toNat = 1
      rw [hreading]
      rfl
    simp only [Call.left, Call.setPipe, hnone, Option.isSome_none, Bool.false_eq_true, if_false,
      hleft]
    show 3 + 0 + call.stderr.left + call.wait.left + 1 = _
    omega
  | stderr =>
    have hleft : call.stderr.left = 1 := by
      show (call.pipe .stderr).ended.isNone.toNat = 1
      rw [hreading]
      rfl
    simp only [Call.left, Call.setPipe, hnone, Option.isSome_none, Bool.false_eq_true, if_false,
      hleft]
    show 3 + call.stdout.left + 0 + call.wait.left + 1 = _
    omega

/-- A running call whose wait goes on has a step less. -/
theorem Call.left_wait {wait : Wait} (hnone : call.outcome = none)
    (hless : wait.left + 1 = call.wait.left) :
    ({ call with wait } : Call).left .registered + 1 = call.left .registered := by
  simp only [Call.left, hnone, Option.isSome_none, Bool.false_eq_true, if_false]
  omega

/-- A change counts, if it is a step of its own. -/
theorem left_change {act : Option Act} (hheld : s.custody.holdings[k]? = some h)
    (hchange : Changes config s k call l call' act) (hnot : act ≠ some (.register k)) :
    call'.left h.stage + (l.isOwn k).toNat ≤ call.left h.stage := by
  have hrun : ∀ {c : Call}, s.running k = some c → h.stage = .registered ∧ c.outcome = none := by
    intro c hrunning
    obtain ⟨held, hheld', hstage, -, hnone⟩ := running_eq_some hrunning
    obtain rfl : h = held := Option.some.inj (hheld.symm.trans hheld')
    exact ⟨hstage, hnone⟩
  cases hchange with
  | cancel =>
    have hown : (Label.cancel k).isOwn k = false := rfl
    rw [hown]
    cases h.stage <;> exact Nat.le_refl _
  | register => exact absurd rfl hnot
  | read pipe bytes hrunning hreading =>
    obtain ⟨hstage, hnone⟩ := hrun hrunning
    rw [hstage]
    cases pipe <;> exact Nat.le_refl _
  | eof pipe hrunning hreading =>
    obtain ⟨hstage, hnone⟩ := hrun hrunning
    rw [hstage, Label.isOwn, beq_self_eq_true]
    exact Nat.le_of_eq (Call.left_drained hnone hreading)
  | readFails pipe error hrunning hreading =>
    obtain ⟨hstage, hnone⟩ := hrun hrunning
    rw [hstage, Label.isOwn, beq_self_eq_true]
    exact Nat.le_of_eq (Call.left_drained hnone hreading)
  | cut pipe hrunning hreading =>
    obtain ⟨hstage, hnone⟩ := hrun hrunning
    rw [hstage, Label.isOwn, beq_self_eq_true]
    exact Nat.le_of_eq (Call.left_drained hnone hreading)
  | stop reason hrunning hwait =>
    obtain ⟨hstage, hnone⟩ := hrun hrunning
    rw [hstage, Label.isOwn, beq_self_eq_true]
    exact Nat.le_of_eq (Call.left_wait hnone (by rw [hwait]; rfl))
  | exit _ status hrunning hwait =>
    obtain ⟨hstage, hnone⟩ := hrun hrunning
    rw [hstage, Label.isOwn, beq_self_eq_true]
    exact Nat.le_of_eq (Call.left_wait hnone (by rw [hwait]; rfl))
  | reap reason status hrunning hwait =>
    obtain ⟨hstage, hnone⟩ := hrun hrunning
    rw [hstage, Label.isOwn, beq_self_eq_true]
    exact Nat.le_of_eq (Call.left_wait hnone (by rw [hwait]; rfl))
  | exitFails error hrunning hwait =>
    obtain ⟨hstage, hnone⟩ := hrun hrunning
    rw [hstage, Label.isOwn, beq_self_eq_true]
    exact Nat.le_of_eq (Call.left_wait hnone (by rw [hwait]; rfl))
  | reapFails error reason hrunning hwait =>
    obtain ⟨hstage, hnone⟩ := hrun hrunning
    rw [hstage, Label.isOwn, beq_self_eq_true]
    exact Nat.le_of_eq (Call.left_wait hnone (by rw [hwait]; rfl))
  | kill status hrunning hwait =>
    obtain ⟨hstage, hnone⟩ := hrun hrunning
    rw [hstage, Label.isOwn, beq_self_eq_true]
    exact Nat.le_of_eq (Call.left_wait hnone (by rw [hwait]; rfl))
  | join outcome hrunning =>
    obtain ⟨hstage, hnone⟩ := hrun hrunning
    rw [hstage, Label.isOwn, beq_self_eq_true]
    simp only [Call.left, hnone, Option.isSome_some, Option.isSome_none, if_true,
      Bool.false_eq_true, if_false, Bool.toNat_true]
    omega

/-- The label of a change names the call. -/
theorem Changes.isOwn_ne {act : Option Act} {j : Nat}
    (hchange : Changes config s j call l call' act) (hne : j ≠ k) : l.isOwn k = false := by
  cases hchange <;> first | rfl | exact beq_false_of_ne hne

theorem Changes.stage_ne {j : Nat} (hchange : Changes config s j call l call' (some a))
    (hne : j ≠ k) (stage : Stage) : Custody.stageAfter a k stage = stage := by
  cases hchange with
  | register => exact if_neg hne
  | _ => rfl

theorem Changes.stage_self (hchange : Changes config s k call l call' (some a))
    (hnot : a ≠ .register k) (stage : Stage) : Custody.stageAfter a k stage = stage := by
  cases hchange with
  | register => exact absurd rfl hnot
  | _ => rfl

/-- What one step makes of the steps a call has left. -/
theorem left_step (hs : Sound s) (hget : s.calls[k]? = some call)
    (hheld : s.custody.holdings[k]? = some h) (hmove : Moves seconds config s l t) :
    ∃ call' f, t.calls[k]? = some call' ∧ t.custody.holdings[k]? = some f ∧
      call'.left f.stage + (l.isOwn k).toNat ≤ call.left h.stage ∧
      (call.isCut s.now = true → call'.isCut t.now = true) := by
  cases hmove with
  | pass time =>
    refine ⟨call, h, hget, hheld, Nat.le_refl _, fun hcut => ?_⟩
    simp only [Call.isCut, Bool.or_eq_true, decide_eq_true_eq] at hcut ⊢
    exact hcut.imp id fun hdeadline => Nat.le_trans hdeadline (Nat.le_add_right _ _)
  | act l a custody hacts hact =>
    obtain ⟨hbefore, f, hf, -, hstage⟩ := Custody.stage_step (Custody.moves hact) hheld
    refine ⟨call, f, hget, hf, ?_, id⟩
    rw [hstage]
    cases hacts with
    | outside e => exact Nat.le_refl _
    | close j other hother houtcome =>
      by_cases hjk : j = k
      · subst hjk
        obtain rfl : call = other := Option.some.inj (hget.symm.trans hother)
        rw [hbefore.close rfl, Custody.stageAfter, if_pos rfl, Label.isOwn, beq_self_eq_true]
        simp [Call.left, houtcome]
      · rw [Custody.stageAfter, if_neg hjk, Label.isOwn, beq_false_of_ne hjk]
        exact Nat.le_refl _
    | drop j other hrunning =>
      by_cases hjk : j = k
      · subst hjk
        obtain ⟨-, -, -, hother, hnone⟩ := running_eq_some hrunning
        obtain rfl : call = other := Option.some.inj (hget.symm.trans hother)
        rw [hbefore.close rfl, Custody.stageAfter, if_pos rfl, Label.isOwn, beq_self_eq_true]
        simp only [Call.left, hnone, Option.isSome_none, Bool.false_eq_true, if_false,
          Bool.toNat_true]
        omega
      · rw [Custody.stageAfter, if_neg hjk, Label.isOwn, beq_false_of_ne hjk]
        exact Nat.le_refl _
    | remove j =>
      by_cases hjk : j = k
      · subst hjk
        rw [hbefore.release rfl, Custody.stageAfter, if_pos rfl, Label.isOwn, beq_self_eq_true]
        exact Nat.le_refl _
      · rw [Custody.stageAfter, if_neg hjk, Label.isOwn, beq_false_of_ne hjk]
        exact Nat.le_refl _
    | cancelProcesses group => exact Nat.le_refl _
  | spawn input nodeDeadline pid timeout command custody _ hact =>
    obtain ⟨-, f, hf, -, hstage⟩ := Custody.stage_step (Custody.moves hact) hheld
    refine ⟨call, f, ?_, hf, ?_, id⟩
    · show (s.calls ++ [_])[k]? = _
      rw [List.getElem?_append_left (List.getElem?_eq_some_iff.mp hget).1]
      exact hget
    · rw [hstage]
      exact Nat.le_refl _
  | change l j other other' hother hchange =>
    by_cases hjk : j = k
    · subst hjk
      obtain rfl : call = other := Option.some.inj (hget.symm.trans hother)
      refine ⟨other', h, List.getElem?_set_self (List.getElem?_eq_some_iff.mp hget).1, hheld,
        left_change hheld hchange (Option.some_ne_none _).symm,
        hchange.isCut fun heq => absurd heq (Option.some_ne_none _).symm⟩
    · refine ⟨call, h, (List.getElem?_set_ne hjk).trans hget, hheld, ?_, id⟩
      rw [hchange.isOwn_ne hjk]
      exact Nat.le_refl _
  | changeAct l j other other' a custody hother hchange hact =>
    obtain ⟨hbefore, f, hf, -, hstage⟩ := Custody.stage_step (Custody.moves hact) hheld
    by_cases hjk : j = k
    · subst hjk
      obtain rfl : call = other := Option.some.inj (hget.symm.trans hother)
      refine ⟨other', f, List.getElem?_set_self (List.getElem?_eq_some_iff.mp hget).1, hf, ?_,
        hchange.isCut fun heq => ?_⟩
      · by_cases hregister : a = .register j
        · subst hregister
          have hown : (l.isOwn j).toNat ≤ 1 := Bool.toNat_le _
          have hless := other'.left_registered_le
          rw [hstage, Custody.stageAfter, if_pos rfl, hbefore.register rfl]
          show _ ≤ 8
          omega
        · rw [hstage, hchange.stage_self hregister]
          exact left_change hheld hchange fun heq => hregister (Option.some.inj heq)
      · have hstarted := hbefore.register (Option.some.inj heq)
        exact ((hs.calls j call h hget hheld).fresh hstarted).2
    · refine ⟨call, f, (List.getElem?_set_ne hjk).trans hget, hf, ?_, id⟩
      rw [hstage, hchange.stage_ne hjk, hchange.isOwn_ne hjk]
      exact Nat.le_refl _

/-- What a run makes of them. -/
theorem left_run {ls : List Label} (hreachable : (system seconds config).Reachable s)
    (hget : s.calls[k]? = some call) (hheld : s.custody.holdings[k]? = some h)
    (hrun : (system seconds config).run s ls = some t) :
    ∃ call' f, t.calls[k]? = some call' ∧ t.custody.holdings[k]? = some f ∧
      call'.left f.stage + ls.countP (Label.isOwn k) ≤ call.left h.stage ∧
      (call.isCut s.now = true → call'.isCut t.now = true) := by
  -- a call and its group are followed together, since both count
  have hbudget := hreachable.budget
    (P := fun s (x : Call × Holding) =>
      s.calls[k]? = some x.1 ∧ s.custody.holdings[k]? = some x.2)
    (Q := fun s x => x.1.isCut s.now = true) (f := fun x => x.1.left x.2.stage)
    (c := Label.isOwn k) (a := (call, h)) (fun s l t x hs hx hstep => by
      obtain ⟨call', f, hget', hheld', hkept⟩ :=
        left_step (sound s hs) hx.1 hx.2 (moves hstep)
      exact ⟨(call', f), ⟨hget', hheld'⟩, hkept⟩) ⟨hget, hheld⟩ hrun
  obtain ⟨⟨call', f⟩, ⟨hget', hheld'⟩, hleft⟩ := hbudget
  exact ⟨call', f, hget', hheld', hleft⟩

/-! ### There is one to take -/

theorem kill_isSome (hheld : s.custody.holdings[k]? = some h) (hstage : h.stage = .registered)
    (call : Call) : ((s.put k call).act (.kill k)).isSome = true := by
  obtain ⟨pid, stage, status⟩ := h
  obtain rfl : stage = .registered := hstage
  have hget : (s.put k call).custody.holdings[k]? = some ⟨pid, .registered, status⟩ := hheld
  simp [State.act, Custody.step, hget, Table.act]

/-- A call that is cut and not at its end has a step of its own to take. -/
theorem own_step (hs : Sound s) (hget : s.calls[k]? = some call)
    (hheld : s.custody.holdings[k]? = some h) (hcut : call.isCut s.now = true)
    (hstage : h.stage ≠ .released) :
    ∃ l, l.isOwn k = true ∧ (s.step seconds config l).isSome = true := by
  obtain ⟨pid, stage, status⟩ := h
  have htold := hs.calls k call _ hget hheld
  cases stage with
  | started =>
    refine ⟨.register k, beq_self_eq_true k, ?_⟩
    have hput : (s.put k (s.started config call)).custody.holdings[k]? =
      some ⟨pid, .started, status⟩ := hheld
    simp [State.step, hget, State.act, Custody.step, hput]
  | closing =>
    refine ⟨.remove k, beq_self_eq_true k, ?_⟩
    simp [State.step, State.act, Custody.step, hheld]
  | released => exact absurd rfl hstage
  | registered =>
    by_cases hout : call.outcome.isSome = true
    · refine ⟨.close k, beq_self_eq_true k, ?_⟩
      simp [State.step, hget, hout, State.act, Custody.step, hheld, Table.act]
    · have hnone : call.outcome = none := Option.not_isSome_iff_eq_none.mp hout
      have hrunning : s.running k = some call := running_intro hheld rfl hget hnone
      cases hwait : call.wait with
      | pending =>
        refine ⟨.poll k, beq_self_eq_true k, ?_⟩
        simp only [Call.isCut, Bool.or_eq_true, decide_eq_true_eq] at hcut
        simp only [State.step, hrunning, Option.bind_eq_bind, Option.bind_some, State.poll, hwait]
        split
        · exact kill_isSome hheld rfl _
        · next hcancelled =>
          rw [if_pos (hcut.resolve_left hcancelled)]
          exact kill_isSome hheld rfl _
      | killed reason =>
        refine ⟨.poll k, beq_self_eq_true k, ?_⟩
        have hstatus : status = none := htold.awaited (.inr ⟨reason, hwait⟩)
        have hquiet := htold.killed (by rw [hwait]; rfl)
        obtain ⟨code, hcode⟩ :=
          ((hs.custody.grouped k _ hheld).leads hstatus).ended hquiet
        have hput : (s.put k { call with wait := .done (.ok code) (some reason) }).custody =
          s.custody := rfl
        simp [State.step, hrunning, State.poll, hwait, hheld, hcode, State.act, Custody.step, hput,
          hstatus, Table.act]
      | exited status =>
        refine ⟨.kill k, beq_self_eq_true k, ?_⟩
        simp only [State.step, hrunning, Option.bind_eq_bind, Option.bind_some, hwait]
        exact kill_isSome hheld rfl _
      | done result reason =>
        cases hstdout : call.stdout.ended with
        | none =>
          refine ⟨.cut k .stdout, beq_self_eq_true k, ?_⟩
          simp [State.step, hrunning, Call.pipe, hstdout, hcut]
        | some out =>
          cases hstderr : call.stderr.ended with
          | none =>
            refine ⟨.cut k .stderr, beq_self_eq_true k, ?_⟩
            simp [State.step, hrunning, Call.pipe, hstderr, hcut]
          | some err =>
            refine ⟨.join k, beq_self_eq_true k, ?_⟩
            have hjoined : call.joined.isSome = true := by
              unfold Call.joined
              rw [hwait, hstdout, hstderr]
              cases result <;> cases out <;> cases err <;> rfl
            obtain ⟨outcome, houtcome⟩ := Option.isSome_iff_exists.mp hjoined
            simp [State.step, hrunning, houtcome]

/-- A call whose deadline passes while a process keeps its pipe open. -/
def lateRun : List Label :=
  [.spawn listInput 100 7, .register 0, .outside (.fork 7 8), .read 0 .stdout [104], .pass 10]

theorem run_late : ∃ s call,
    (system noSeconds testConfig).run (system noSeconds testConfig).init lateRun = some s ∧
      s.calls[0]? = some call ∧ call.isCut s.now = true ∧
      s.custody.holdings[0]? = some ⟨7, .registered, none⟩ :=
  ⟨_, _, rfl, rfl, rfl, rfl⟩

end

end Kyora.Shell
