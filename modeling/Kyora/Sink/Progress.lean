import Kyora.Sink.Finishes

/-! # Every call returns

  A quiescent sink is one in which only new calls and dropped futures are left
  to happen. In a quiescent sink every call has returned or was dropped
  (`quiescent_calls`), and a run that goes on without new calls comes to an
  end (`run_bound`).
-/

namespace Kyora.Sink

open Trace (TraceEvent TraceRecord)

/-! ### Nothing is forgotten -/

/-- The task has not sent its reply. -/
def TaskPc.isOpen : TaskPc → Bool
  | .storing | .stored _ | .latched _ => true
  | _ => false

/-- Someone still has to answer the emit `k`. -/
inductive Owed (s : State) (k : Nat) : Prop where
  | queued (hqueue : .event k ∈ s.queue)
  | taken (hwriter : s.writer = .handling k)
  | stored (x : AckTask) (hx : x ∈ s.tasks) (hcall : x.call = k) (hopen : x.pc.isOpen = true)

theorem owed_set {s t : State} {i k : Nat} {x : AckTask} {pc : TaskPc}
    (hi : s.tasks[i]? = some x) (htasks : t.tasks = s.tasks.set i { x with pc })
    (hqueue : t.queue = s.queue) (hwriter : t.writer = s.writer) (h : Owed s k)
    (hopen : x.call = k → x.pc.isOpen = true → pc.isOpen = true) : Owed t k := by
  cases h with
  | queued hmem => exact .queued (hqueue ▸ hmem)
  | taken hk => exact .taken (hwriter.trans hk)
  | stored y hy hcall hopen' =>
    obtain ⟨n, hn⟩ := List.mem_iff_getElem?.mp hy
    by_cases hne : i = n
    · subst hne
      obtain rfl : x = y := Option.some.inj (hi.symm.trans hn)
      have hlt : i < s.tasks.length := (List.getElem?_eq_some_iff.mp hi).1
      refine .stored { x with pc } ?_ hcall (hopen hcall hopen')
      rw [htasks]
      exact List.mem_of_getElem? (List.getElem?_set_self hlt)
    · refine .stored y ?_ hcall hopen'
      rw [htasks]
      exact List.mem_of_getElem? ((List.getElem?_set_ne hne).trans hn)

/-- An emit that is owed a reply is owed one after a step, or has got it. -/
theorem owed_step {s t : State} (hmove : Moves s t) {k : Nat} {e : Emit}
    (hk : t.emits[k]? = some e) (hpending : e.reply = .pending) (h : Owed s k) : Owed t k := by
  have hreply : ∀ result, (s.reply k result).emits[k]? ≠ some e := by
    intro result hsome
    simp only [State.reply, List.getElem?_modify] at hsome
    obtain ⟨x, -, rfl⟩ := Option.map_eq_some_iff.mp hsome
    simp at hpending
  have hsame : t.queue = s.queue → t.writer = s.writer → t.tasks = s.tasks → Owed t k := by
    intro hqueue hwriter htasks
    cases h with
    | queued hmem => exact .queued (hqueue ▸ hmem)
    | taken hk => exact .taken (hwriter.trans hk)
    | stored y hy hcall hopen => exact .stored y (htasks ▸ hy) hcall hopen
  cases hmove with
  | sent n x hn hpc hopen =>
    cases h with
    | queued hmem => exact .queued (List.mem_append_left _ hmem)
    | taken hwriter => exact .taken hwriter
    | stored y hy hcall hopen => exact .stored y hy hcall hopen
  | finishSent n x hn hpc hopen =>
    cases h with
    | queued hmem => exact .queued (List.mem_append_left _ hmem)
    | taken hwriter => exact .taken hwriter
    | stored y hy hcall hopen => exact .stored y hy hcall hopen
  | received command queue hwriter hqueue =>
    cases h with
    | queued hmem =>
      rw [hqueue] at hmem
      rcases List.mem_cons.mp hmem with rfl | hmem
      · exact .taken rfl
      · exact .queued hmem
    | taken hk => cases hwriter.symm.trans hk
    | stored y hy hcall hopen =>
      refine .stored y.reap (List.mem_map_of_mem hy) ((reap_call y).trans hcall) ?_
      unfold AckTask.reap
      split
      · next hpc => rw [hpc] at hopen; cases hopen
      · next hpc => rw [hpc] at hopen; cases hopen
      · exact hopen
  | refused n error hwriter hfailed =>
    cases h with
    | queued hmem => exact .queued hmem
    | taken hk' =>
      cases hwriter.symm.trans hk'
      exact absurd hk (hreply _)
    | stored y hy hcall hopen => exact .stored y hy hcall hopen
  | handed n x ts hwriter hfailed hn =>
    cases h with
    | queued hmem => exact .queued hmem
    | taken hk' =>
      cases hwriter.symm.trans hk'
      exact .stored _ (List.mem_append_right _ List.mem_cons_self) rfl rfl
    | stored y hy hcall hopen => exact .stored y (List.mem_append_left _ hy) hcall hopen
  | replied j result hwriter hall hresult =>
    cases h with
    | queued hmem => exact .queued hmem
    | taken hk' => cases hwriter.symm.trans hk'
    | stored y hy hcall hopen => exact .stored y hy hcall hopen
  | exited hwriter =>
    cases h with
    | queued hmem =>
      simp only [List.getElem?_mapIdx, hmem, if_true] at hk
      obtain ⟨x, -, rfl⟩ := Option.map_eq_some_iff.mp hk
      cases hpending
    | taken hk' => cases hwriter.symm.trans hk'
    | stored y hy hcall hopen => exact .stored y hy hcall hopen
  | reaped i x result hi hpc =>
    exact owed_set hi rfl rfl rfl h (fun _ hopen => by rw [hpc] at hopen; cases hopen)
  | completed i x completion hi hpc => exact owed_set hi rfl rfl rfl h (fun _ _ => rfl)
  | latched i x error hi hpc => exact owed_set hi rfl rfl rfl h (fun _ _ => rfl)
  | unfailed i x hi hpc => exact owed_set hi rfl rfl rfl h (fun _ _ => rfl)
  | acked i x result hi hpc =>
    refine owed_set hi rfl rfl rfl h (fun hcall _ => ?_)
    subst hcall
    exact absurd hk (hreply _)
  | ended i x result hi hpc =>
    exact owed_set hi rfl rfl rfl h (fun _ hopen => by rw [hpc] at hopen; cases hopen)
  | _ => exact hsame rfl rfl rfl

/-- Every emit that waits without a reply is owed one. -/
theorem emits_owed : ∀ s, sink.Reachable s → ∀ (k : Nat) (e : Emit),
    s.emits[k]? = some e → e.pc = .awaiting → e.reply = .pending → Owed s k := by
  apply LTS.System.invariant_with (J := sink.Reachable)
    (P := fun s : State => ∀ (k : Nat) (e : Emit), s.emits[k]? = some e → e.pc = .awaiting →
      e.reply = .pending → Owed s k) (fun _ hs => hs)
  · intro k e hk
    cases hk
  · intro s l t hs _ h _ hstep k e hk hpc hpending
    have hmove := moves_of_step hs hstep
    rcases emitAfter_of_moves hmove hk with ⟨-, event, rfl⟩ | ⟨x, hx, htouched⟩
    · unfold Emit.fresh at hpc
      split at hpc <;> cases hpc
    · cases htouched with
      | same => exact owed_step hmove hk hpending (h k e hx hpc hpending)
      | sent hsending hqueue => exact .queued hqueue
      | _ => first | cases hpc | cases hpending

/-- Every finish that waits without a reply is queued or handled. -/
theorem finishes_owed : ∀ s, sink.Reachable s → ∀ (j : Nat) (f : Finish),
    s.finishes[j]? = some f → f.pc = .awaiting → f.reply = .pending →
      .finish j ∈ s.queue ∨ s.writer = .finishing j := by
  apply LTS.System.invariant_with (J := sink.Reachable)
    (P := fun s : State => ∀ (j : Nat) (f : Finish), s.finishes[j]? = some f →
      f.pc = .awaiting → f.reply = .pending →
        .finish j ∈ s.queue ∨ s.writer = .finishing j) (fun _ hs => hs)
  · intro j f hj
    cases hj
  · intro s l t hs _ h _ hstep j f hj hpc hpending
    have hmove := moves_of_step hs hstep
    rcases finishAfter_of_moves hmove hj with ⟨-, rfl⟩ | ⟨x, hx, hgoes⟩
    · cases hpc
    cases hgoes with
    | sent hsending hqueue => exact Or.inl hqueue
    | same =>
      have hold := h j f hx hpc hpending
      cases hmove with
      | sent n x hn hpc hopen => exact hold.imp_left (List.mem_append_left _)
      | finishSent n x hn hpc hopen => exact hold.imp_left (List.mem_append_left _)
      | received command queue hwriter hqueue =>
        rcases hold with hmem | hfinishing
        · rw [hqueue] at hmem
          rcases List.mem_cons.mp hmem with rfl | hmem
          · exact Or.inr rfl
          · exact Or.inl hmem
        · cases hwriter.symm.trans hfinishing
      | refused n error hwriter hfailed =>
        exact Or.inl (hold.resolve_right fun h => by cases hwriter.symm.trans h)
      | handed n x ts hwriter hfailed hn =>
        exact Or.inl (hold.resolve_right fun h => by cases hwriter.symm.trans h)
      | replied n result hwriter hall hresult =>
        refine Or.inl (hold.resolve_right fun hfinishing => ?_)
        cases hwriter.symm.trans hfinishing
        simp only [State.replyFinish, List.getElem?_modify] at hj
        obtain ⟨y, -, rfl⟩ := Option.map_eq_some_iff.mp hj
        simp at hpending
      | exited hwriter =>
        have hmem := hold.resolve_right fun h => by cases hwriter.symm.trans h
        simp only [List.getElem?_mapIdx, hmem, if_true] at hj
        obtain ⟨y, -, rfl⟩ := Option.map_eq_some_iff.mp hj
        cases hpending
      | _ => exact hold
    | _ => first | cases hpc | cases hpending

/-- The lock on the join handle is held by a call that goes on. -/
theorem holder_holds : ∀ s, sink.Reachable s → ∀ j, s.holder = some j →
    ∃ f, s.finishes[j]? = some f ∧ f.pc.holds = true := by
  apply LTS.System.invariant_with (J := sink.Reachable)
    (P := fun s : State => ∀ j, s.holder = some j →
      ∃ f, s.finishes[j]? = some f ∧ f.pc.holds = true) (fun _ hs => hs)
  · intro j hj
    cases hj
  · intro s l t hs _ h _ hstep j hj
    have hmove := moves_of_step hs hstep
    -- A call that keeps the lock is stored again.
    have hset : ∀ (n : Nat) (x : Finish) (f' : Finish), s.finishes[n]? = some x →
        (x.pc.holds = true → f'.pc.holds = true) → s.holder = some j →
        ∃ f, (s.finishes.set n f')[j]? = some f ∧ f.pc.holds = true := by
      intro n x f' hn hkeep hholder
      obtain ⟨f, hf, hholds⟩ := h j hholder
      by_cases hnj : n = j
      · subst hnj
        obtain rfl := Option.some.inj (hn.symm.trans hf)
        have hlt : n < s.finishes.length := (List.getElem?_eq_some_iff.mp hn).1
        exact ⟨f', List.getElem?_set_self hlt, hkeep hholds⟩
      · exact ⟨f, (List.getElem?_set_ne hnj).trans hf, hholds⟩
    cases hmove with
    | finish =>
      obtain ⟨f, hf, hholds⟩ := h j hj
      exact ⟨f, (List.getElem?_append_left (List.getElem?_eq_some_iff.mp hf).1).trans hf, hholds⟩
    | locked n x hn hpc hholder htaken =>
      obtain rfl := Option.some.inj hj
      have hlt : n < s.finishes.length := (List.getElem?_eq_some_iff.mp hn).1
      exact ⟨_, List.getElem?_set_self hlt, rfl⟩
    | passed n x hn hpc hholder htaken => cases hholder.symm.trans hj
    | finishSent n x hn hpc hopen => exact hset n x _ hn (fun _ => rfl) hj
    | finishAnswered n x result hn hpc hreply => exact hset n x _ hn (fun _ => rfl) hj
    | finishClosed n x hn hpc hclosed => cases hj
    | finishUnanswered n x hn hpc hreply => cases hj
    | finishJoined n x result hn hpc hexited => cases hj
    | finishDropped n x holder hn hholder =>
      rcases hholder with ⟨hpc, rfl⟩ | ⟨-, rfl⟩
      · exact hset n x _ hn (fun hholds => by rw [hpc] at hholds; cases hholds) hj
      · cases hj
    | replied n result hwriter hall hresult =>
      obtain ⟨f, hf, hholds⟩ := h j hj
      simp only [State.replyFinish, List.getElem?_modify, hf]
      refine ⟨_, rfl, ?_⟩
      split <;> exact hholds
    | exited hwriter =>
      obtain ⟨f, hf, hholds⟩ := h j hj
      simp only [List.getElem?_mapIdx, hf]
      refine ⟨_, rfl, ?_⟩
      split <;> exact hholds
    | _ => exact h j hj

/-! ### Quiescence -/

/-- The label starts a call, or drops the future of one. -/
def Label.isCaller : Label → Bool
  | .emit _ | .drop _ | .finish | .dropFinish _ => true
  | _ => false

/-- Only callers could make a step. -/
def Quiescent (s : State) : Prop := ∀ l, l.isCaller = false → step s l = none

theorem quiescent_tasks {s : State} (hs : sink.Reachable s) (h : Quiescent s) {i : Nat}
    {x : AckTask} (hi : s.tasks[i]? = some x) :
    x.pc.isReaped = true ∨ ∃ result, x.pc = .ended result := by
  have hcomplete := complete_tasks s hs x (List.mem_of_getElem? hi)
  cases hpc : x.pc with
  | storing => simpa [step, stepComplete, hi, hpc] using h (.complete i .ok) rfl
  | stored result =>
    cases result <;> simpa [step, stepLatch, hi, hpc] using h (.latch i) rfl
  | latched result => simpa [step, stepAck, hi, hpc] using h (.ack i) rfl
  | acknowledged result => simpa [step, stepEnded, hi, hpc] using h (.ended i) rfl
  | ended result => exact Or.inr ⟨result, rfl⟩
  | reaped result => exact Or.inl rfl
  | aborted => rw [hpc] at hcomplete; cases hcomplete
  | lost => rw [hpc] at hcomplete; cases hcomplete

theorem quiescent_writer {s : State} (hs : sink.Reachable s) (h : Quiescent s) :
    (s.writer = .receiving ∨ s.writer = .exited) ∧ s.queue = [] := by
  cases hwriter : s.writer with
  | receiving =>
    refine ⟨Or.inl rfl, ?_⟩
    cases hqueue : s.queue with
    | nil => rfl
    | cons command queue =>
      simpa [step, stepReceive, hwriter, hqueue] using h .receive rfl
  | exited => exact ⟨Or.inr rfl, (closing_journal s hs).queue hwriter⟩
  | leaving => simpa [step, stepExit, hwriter] using h .exit rfl
  | handling k =>
    cases hfailed : s.failed with
    | some error => simpa [step, stepHandle, hwriter, hfailed] using h (.handle "") rfl
    | none =>
      -- The event in hand is one of the line, so its emit exists.
      obtain ⟨refused, hevents, -⟩ := ordered_journal s hs
      have hmem : k ∈ s.journal.events := by
        rw [hevents, show s.journal.writer = .handling k from hwriter]
        exact List.mem_append_right _ List.mem_cons_self
      obtain ⟨command, hc, hevent⟩ := List.mem_filterMap.mp hmem
      have hcommand : command = .event k := by
        cases command with
        | event n => rw [Option.some.inj hevent]
        | finish j => cases hevent
      obtain ⟨e, he, -⟩ := (lined s hs).sent _ (List.mem_append_left _ (hcommand ▸ hc))
      simpa [step, stepHandle, hwriter, hfailed, he] using h (.handle "") rfl
  | finishing j =>
    have hall : ∀ t ∈ s.tasks, t.pc.isReaped = true := by
      intro t ht
      obtain ⟨i, hi⟩ := List.mem_iff_getElem?.mp ht
      rcases quiescent_tasks hs h hi with hreaped | ⟨result, hpc⟩
      · exact hreaped
      · simpa [step, stepReap, hi, hpc, hwriter] using h (.reap i) rfl
    have hreply := h .reply rfl
    simp only [step, stepReply, hwriter] at hreply
    rw [if_pos (List.all_eq_true.mpr hall)] at hreply
    cases hreply

/-- The call has returned, or its future was dropped. -/
def EmitPc.isOver : EmitPc → Bool
  | .returned _ | .dropped => true
  | _ => false

def FinishPc.isOver : FinishPc → Bool
  | .returned _ | .dropped => true
  | _ => false

theorem quiescent_emits {s : State} (hs : sink.Reachable s) (h : Quiescent s) {k : Nat}
    {e : Emit} (hk : s.emits[k]? = some e) : e.pc.isOver = true := by
  obtain ⟨hwriter, hqueue⟩ := quiescent_writer hs h
  cases hpc : e.pc with
  | returned result => rfl
  | dropped => rfl
  | sending =>
    have hsend := h (.send k) rfl
    rcases hwriter with hwriter | hwriter <;>
      simp [step, stepSend, hk, hpc, hwriter, hqueue, writerCapacity] at hsend
  | awaiting =>
    cases hreply : e.reply with
    | sent result => simpa [step, stepAnswered, hk, hpc, hreply] using h (.answered k) rfl
    | lost => simpa [step, stepAnswered, hk, hpc, hreply] using h (.answered k) rfl
    | pending =>
      cases emits_owed s hs k e hk hpc hreply with
      | queued hmem => rw [hqueue] at hmem; cases hmem
      | taken htaken => rw [htaken] at hwriter; simp at hwriter
      | stored x hx hcall hopen =>
        obtain ⟨i, hi⟩ := List.mem_iff_getElem?.mp hx
        rcases quiescent_tasks hs h hi with hreaped | ⟨result, hended⟩
        · cases hx : x.pc <;> simp [hx, TaskPc.isOpen, TaskPc.isReaped] at hopen hreaped
        · rw [hended] at hopen
          cases hopen

theorem quiescent_holds {s : State} (hs : sink.Reachable s) (h : Quiescent s) {j : Nat}
    {f : Finish} (hf : s.finishes[j]? = some f) : f.pc.holds = false := by
  obtain ⟨hwriter, hqueue⟩ := quiescent_writer hs h
  cases hpc : f.pc with
  | sending =>
    have hsend := h (.sendFinish j) rfl
    rcases hwriter with hwriter | hwriter <;>
      simp [step, stepSendFinish, hf, hpc, hwriter, hqueue, writerCapacity] at hsend
  | awaiting =>
    cases hreply : f.reply with
    | sent result =>
      simpa [step, stepAnsweredFinish, hf, hpc, hreply] using h (.answeredFinish j) rfl
    | lost => exact absurd hreply (finishes_sound s hs j f hf).answered
    | pending =>
      rcases finishes_owed s hs j f hf hpc hreply with hmem | hfinishing
      · rw [hqueue] at hmem
        cases hmem
      · rw [hfinishing] at hwriter
        simp at hwriter
  | joining result =>
    have hover := ((finishes_sound s hs j f hf).joining result hpc).1
    have hexited : s.writer = .exited := by
      rcases hwriter with hwriter | hwriter
      · simp [hwriter] at hover
      · exact hwriter
    simpa [step, stepJoined, hf, hpc, hexited] using h (.joined j) rfl
  | locking => rfl
  | returned result => rfl
  | dropped => rfl

theorem quiescent_finishes {s : State} (hs : sink.Reachable s) (h : Quiescent s) {j : Nat}
    {f : Finish} (hj : s.finishes[j]? = some f) : f.pc.isOver = true := by
  have hfree : s.holder = none := by
    by_contra hne
    obtain ⟨n, hn⟩ := Option.ne_none_iff_exists'.mp hne
    obtain ⟨x, hx, hholds⟩ := holder_holds s hs n hn
    rw [quiescent_holds hs h hx] at hholds
    cases hholds
  have hholds := quiescent_holds hs h hj
  cases hpc : f.pc with
  | locking =>
    have hlock := h (.lock j) rfl
    simp only [step, hj, Option.bind_some, stepLock, hpc, hfree] at hlock
    split at hlock <;> cases hlock
  | returned result => rfl
  | dropped => rfl
  | sending => rw [hpc] at hholds; cases hholds
  | awaiting => rw [hpc] at hholds; cases hholds
  | joining result => rw [hpc] at hholds; cases hholds

/-! ### Runs come to an end -/

/-- The steps an emit may still take part in. -/
def EmitPc.weight : EmitPc → Nat
  | .sending => 9
  | .awaiting => 1
  | _ => 0

def FinishPc.weight : FinishPc → Nat
  | .locking => 11
  | .sending => 10
  | .awaiting => 2
  | .joining _ => 1
  | _ => 0

def TaskPc.weight : TaskPc → Nat
  | .storing => 5
  | .stored _ => 4
  | .latched _ => 3
  | .acknowledged _ => 2
  | .ended _ | .aborted => 1
  | _ => 0

def WriterPc.weight : WriterPc → Nat
  | .handling _ => 9
  | .receiving => 3
  | .finishing _ => 2
  | .leaving => 1
  | .exited => 0

def emitWeight (emits : List Emit) : Nat := (emits.map fun e => e.pc.weight).sum

def finishWeight (finishes : List Finish) : Nat := (finishes.map fun f => f.pc.weight).sum

def taskWeight (tasks : List AckTask) : Nat := (tasks.map fun t => t.pc.weight).sum

/-- A bound on the steps that are left without new calls. -/
def State.weight (s : State) : Nat :=
  emitWeight s.emits + finishWeight s.finishes + taskWeight s.tasks + 7 * s.queue.length +
    s.writer.weight

/-- The calls so far. -/
def State.calls (s : State) : Nat := s.emits.length + s.finishes.length

theorem sum_set {α : Type} (w : α → Nat) {xs : List α} {i d : Nat} {x y : α}
    (hi : xs[i]? = some x) (hw : w y + d ≤ w x) :
    ((xs.set i y).map w).sum + d ≤ (xs.map w).sum := by
  obtain ⟨rest, hold, hnew⟩ := Pool.exists_perm_set y hi
  rw [(hold.map w).sum_eq, (hnew.map w).sum_eq, List.map_cons, List.map_cons, List.sum_cons,
    List.sum_cons]
  omega

theorem emitWeight_set {emits : List Emit} {k d : Nat} {e : Emit} (e' : Emit)
    (hk : emits[k]? = some e) (hw : e'.pc.weight + d ≤ e.pc.weight) :
    emitWeight (emits.set k e') + d ≤ emitWeight emits :=
  sum_set (fun e : Emit => e.pc.weight) hk hw

theorem finishWeight_set {finishes : List Finish} {j d : Nat} {f : Finish} (f' : Finish)
    (hj : finishes[j]? = some f) (hw : f'.pc.weight + d ≤ f.pc.weight) :
    finishWeight (finishes.set j f') + d ≤ finishWeight finishes :=
  sum_set (fun f : Finish => f.pc.weight) hj hw

theorem taskWeight_set {tasks : List AckTask} {i d : Nat} {t t' : AckTask}
    (hi : tasks[i]? = some t) (hw : t'.pc.weight + d ≤ t.pc.weight) :
    taskWeight (tasks.set i t') + d ≤ taskWeight tasks :=
  sum_set (fun t : AckTask => t.pc.weight) hi hw

/-- What keeps every pc keeps the weight. -/
theorem sum_congr {α : Type} (w : α → Nat) {xs ys : List α}
    (h : ∀ n : Nat, (ys[n]?).map w = (xs[n]?).map w) : (ys.map w).sum = (xs.map w).sum := by
  congr 1
  apply List.ext_getElem?
  intro n
  rw [List.getElem?_map, List.getElem?_map]
  exact h n

theorem emitWeight_reply (s : State) (k : Nat) (result : Except String Unit) :
    emitWeight (s.reply k result).emits = emitWeight s.emits := by
  apply sum_congr
  intro n
  rw [State.reply, List.getElem?_modify]
  cases s.emits[n]? with
  | none => rfl
  | some e =>
    simp only [Option.map_eq_map, Option.map_some]
    split <;> rfl

theorem finishWeight_reply (s : State) (j : Nat) (result : Except String Unit) :
    finishWeight (s.replyFinish j result).finishes = finishWeight s.finishes := by
  apply sum_congr
  intro n
  rw [State.replyFinish, List.getElem?_modify]
  cases s.finishes[n]? with
  | none => rfl
  | some f =>
    simp only [Option.map_eq_map, Option.map_some]
    split <;> rfl

theorem taskWeight_reap (tasks : List AckTask) :
    taskWeight (tasks.map AckTask.reap) ≤ taskWeight tasks := by
  unfold taskWeight
  rw [List.map_map]
  apply List.sum_le_sum
  intro t _
  simp only [Function.comp_apply, AckTask.reap]
  split
  · exact Nat.zero_le _
  · exact Nat.zero_le _
  · exact Nat.le_refl _

/-- A step uses up weight; only a new call brings some. -/
theorem weight_step {s t : State} (h : Moves s t) :
    t.weight + 1 + 13 * s.calls ≤ s.weight + 13 * t.calls := by
  unfold State.weight State.calls
  -- A task that moves on makes a step lighter by one.
  have htask : ∀ {i : Nat} {x : AckTask} (pc : TaskPc), s.tasks[i]? = some x →
      pc.weight + 1 ≤ x.pc.weight →
      taskWeight (s.setTask i { x with pc }).tasks + 1 ≤ taskWeight s.tasks :=
    fun pc hi hw => taskWeight_set hi hw
  cases h with
  | emitted event =>
    have hfresh : emitWeight (stepEmit s event).emits ≤ emitWeight s.emits + 9 := by
      simp only [emitWeight, stepEmit, List.map_append, List.sum_append, List.map_singleton,
        List.sum_singleton]
      split <;> simp [EmitPc.weight]
    simp only [stepEmit, List.length_append, List.length_singleton] at hfresh ⊢
    omega
  | finish =>
    simp only [finishWeight, List.map_append, List.sum_append, List.map_singleton,
      List.sum_singleton, List.length_append, List.length_singleton]
    have hfresh : FinishPc.locking.weight = 11 := rfl
    omega
  | sent k e hk hpc hopen =>
    have hset := emitWeight_set (d := 8) { e with pc := .awaiting } hk
      (by rw [hpc]; exact Nat.le_refl _)
    simp only [State.setEmit, List.length_append, List.length_set, List.length_singleton]
    omega
  | closed k e hk hpc hclosed =>
    have hset := emitWeight_set (d := 9) { e with pc := .returned (.error "channel closed") } hk
      (by rw [hpc]; exact Nat.le_refl _)
    simp only [State.setEmit, List.length_set]
    omega
  | answered k e result hk hpc hreply =>
    have hset := emitWeight_set (d := 1) { e with pc := .returned result } hk
      (by rw [hpc]; exact Nat.le_refl _)
    simp only [State.setEmit, List.length_set]
    omega
  | unanswered k e hk hpc hreply =>
    have hset := emitWeight_set (d := 1) { e with pc := .returned (.error "channel closed") } hk
      (by rw [hpc]; exact Nat.le_refl _)
    simp only [State.setEmit, List.length_set]
    omega
  | dropped k e hk hpc =>
    have hpos : EmitPc.dropped.weight + 1 ≤ e.pc.weight := by
      rcases hpc with hpc | hpc <;> rw [hpc] <;> decide
    have hset := emitWeight_set (d := 1) { e with pc := .dropped } hk hpos
    simp only [State.setEmit, List.length_set]
    omega
  | locked j f hj hpc hholder htaken =>
    have hset := finishWeight_set (d := 1) { f with pc := .sending } hj
      (by rw [hpc]; exact Nat.le_refl _)
    simp only [State.setFinish, List.length_set]
    omega
  | passed j f hj hpc hholder htaken =>
    have hset := finishWeight_set (d := 11) { f with pc := .returned (.ok ()) } hj
      (by rw [hpc]; exact Nat.le_refl _)
    simp only [State.setFinish, List.length_set]
    omega
  | finishSent j f hj hpc hopen =>
    have hset := finishWeight_set (d := 8) { f with pc := .awaiting } hj
      (by rw [hpc]; exact Nat.le_refl _)
    simp only [State.setFinish, List.length_append, List.length_set, List.length_singleton]
    omega
  | finishClosed j f hj hpc hclosed =>
    have hset := finishWeight_set (d := 10) { f with pc := .returned (.error "channel closed") } hj
      (by rw [hpc]; exact Nat.le_refl _)
    simp only [State.setFinish, List.length_set]
    omega
  | finishAnswered j f result hj hpc hreply =>
    have hset := finishWeight_set (d := 1) { f with pc := .joining result } hj
      (by rw [hpc]; exact Nat.le_refl _)
    simp only [State.setFinish, List.length_set]
    omega
  | finishUnanswered j f hj hpc hreply =>
    have hset := finishWeight_set (d := 2) { f with pc := .returned (.error "channel closed") } hj
      (by rw [hpc]; exact Nat.le_refl _)
    simp only [State.setFinish, List.length_set]
    omega
  | finishJoined j f result hj hpc hexited =>
    have hset := finishWeight_set (d := 1) { f with pc := .returned result } hj
      (by rw [hpc]; exact Nat.le_refl _)
    simp only [State.setFinish, List.length_set]
    omega
  | finishDropped j f holder hj hholder =>
    have hpos : FinishPc.dropped.weight + 1 ≤ f.pc.weight := by
      rcases hholder with ⟨hpc, -⟩ | ⟨hholds, -⟩
      · rw [hpc]
        decide
      · cases hpc : f.pc <;> simp [hpc, FinishPc.holds, FinishPc.weight] at hholds ⊢
    have hset := finishWeight_set (d := 1) { f with pc := .dropped } hj hpos
    simp only [State.setFinish, List.length_set]
    omega
  | received command queue hwriter hqueue =>
    have hreap := taskWeight_reap s.tasks
    have hcommand : command.writer.weight ≤ 9 := by
      cases command <;> simp [WriteCommand.writer, WriterPc.weight]
    rw [hwriter, hqueue, show WriterPc.receiving.weight = 3 from rfl]
    simp only [List.length_cons]
    omega
  | refused k error hwriter hfailed =>
    rw [emitWeight_reply, hwriter]
    simp only [State.reply, List.length_modify, WriterPc.weight]
    omega
  | handed k e ts hwriter hfailed hk =>
    have hnew : taskWeight (s.tasks ++ [⟨.new e.event (some s.seq) ts, k, .storing⟩]) =
        taskWeight s.tasks + 5 := by
      simp [taskWeight, TaskPc.weight]
    rw [hnew, hwriter]
    simp only [WriterPc.weight]
    omega
  | reaped i x result hi hpc =>
    have hset := htask (.reaped result) hi (by rw [hpc]; exact Nat.le_refl _)
    simp only [State.setTask] at hset ⊢
    omega
  | replied j result hwriter hall hresult =>
    rw [finishWeight_reply, hwriter]
    simp only [State.replyFinish, List.length_modify, WriterPc.weight]
    omega
  | exited hwriter =>
    have hemits : emitWeight (s.emits.mapIdx fun k e =>
        if .event k ∈ s.queue then { e with reply := .lost } else e) = emitWeight s.emits := by
      apply sum_congr
      intro n
      rw [List.getElem?_mapIdx]
      cases s.emits[n]? with
      | none => rfl
      | some e =>
        simp only [Option.map_some]
        split <;> rfl
    have hfinishes : finishWeight (s.finishes.mapIdx fun j f =>
        if .finish j ∈ s.queue then { f with reply := .lost } else f) =
          finishWeight s.finishes := by
      apply sum_congr
      intro n
      rw [List.getElem?_mapIdx]
      cases s.finishes[n]? with
      | none => rfl
      | some f =>
        simp only [Option.map_some]
        split <;> rfl
    rw [hemits, hfinishes, hwriter]
    simp only [List.length_mapIdx, List.length_nil, WriterPc.weight]
    omega
  | completed i x completion hi hpc =>
    have hset := htask (.stored completion.result) hi (by rw [hpc]; exact Nat.le_refl _)
    simp only [State.setTask] at hset ⊢
    omega
  | latched i x error hi hpc =>
    have hset := htask (.latched (.error error)) hi (by rw [hpc]; exact Nat.le_refl _)
    simp only [State.setTask, State.latch] at hset ⊢
    omega
  | unfailed i x hi hpc =>
    have hset := htask (.latched (.ok ())) hi (by rw [hpc]; exact Nat.le_refl _)
    simp only [State.setTask] at hset ⊢
    omega
  | acked i x result hi hpc =>
    have hset := htask (.acknowledged result) hi (by rw [hpc]; exact Nat.le_refl _)
    have hreply := emitWeight_reply s x.call result
    simp only [State.setTask, State.reply, List.length_modify] at hset hreply ⊢
    omega
  | ended i x result hi hpc =>
    have hset := htask (.ended result) hi (by rw [hpc]; exact Nat.le_refl _)
    simp only [State.setTask] at hset ⊢
    omega

/-- A run is no longer than the weight at its start and the calls it brings
    allow. -/
theorem run_bound {s u : State} {ls : List Label} (hs : sink.Reachable s)
    (hrun : sink.run s ls = some u) :
    ls.length + u.weight + 13 * s.calls ≤ s.weight + 13 * u.calls := by
  induction ls generalizing s with
  | nil =>
    obtain rfl := Option.some.inj hrun
    simp
  | cons l ls ih =>
    obtain ⟨t, hstep, hrest⟩ := (sink.run_cons).mp hrun
    have hfirst := weight_step (moves_of_step hs hstep)
    have hlast := ih (hs.next hstep) hrest
    rw [List.length_cons]
    omega

end Kyora.Sink
