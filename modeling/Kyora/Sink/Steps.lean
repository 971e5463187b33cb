import Kyora.Sink.Basic

/-! # What one step of the sink does

  `Moves` lists the steps with the state each leaves behind. No
  acknowledgement task is ever lost, because a panic of its future is caught
  (`complete_tasks`), so the writer latches nothing when it reaps.
-/

namespace Kyora.Sink

open Trace (TraceEvent TraceRecord)

/-! ### Tasks complete -/

/-- A task that is still on its way, or has run to its end. -/
def TaskPc.completes : TaskPc → Bool
  | .aborted | .lost => false
  | _ => true

/-- With no task lost, nothing is latched when the writer reaps. -/
theorem lost_eq {s : State} (h : ∀ t ∈ s.tasks, t.pc.completes = true) : s.lost = s := by
  unfold State.lost
  refine if_neg ?_
  intro hany
  obtain ⟨t, ht, haborted⟩ := List.any_eq_true.mp hany
  have hcomplete := h t ht
  unfold AckTask.isAborted at haborted
  split at haborted
  · next hpc => rw [hpc] at hcomplete; cases hcomplete
  · cases haborted

/-! ### Moves -/

/-- The writer's place after it took a command. -/
def WriteCommand.writer : WriteCommand → WriterPc
  | .event k => .handling k
  | .finish j => .finishing j

/-- The call holds the lock on the join handle. -/
def FinishPc.holds : FinishPc → Bool
  | .sending | .awaiting | .joining _ => true
  | _ => false

/-- The steps from a state `s`. -/
inductive Moves (s : State) : State → Prop where
  | emitted (event : TraceEvent) : Moves s (stepEmit s event)
  | sent (k : Nat) (e : Emit) (hk : s.emits[k]? = some e) (hpc : e.pc = .sending)
      (hopen : s.writer ≠ .exited) :
      Moves s { s.setEmit k { e with pc := .awaiting } with queue := s.queue ++ [.event k] }
  | closed (k : Nat) (e : Emit) (hk : s.emits[k]? = some e) (hpc : e.pc = .sending)
      (hclosed : s.writer = .exited) :
      Moves s (s.setEmit k { e with pc := .returned (.error "channel closed") })
  | answered (k : Nat) (e : Emit) (result : Except String Unit) (hk : s.emits[k]? = some e)
      (hpc : e.pc = .awaiting) (hreply : e.reply = .sent result) :
      Moves s (s.setEmit k { e with pc := .returned result })
  | unanswered (k : Nat) (e : Emit) (hk : s.emits[k]? = some e) (hpc : e.pc = .awaiting)
      (hreply : e.reply = .lost) :
      Moves s (s.setEmit k { e with pc := .returned (.error "channel closed") })
  | dropped (k : Nat) (e : Emit) (hk : s.emits[k]? = some e)
      (hpc : e.pc = .sending ∨ e.pc = .awaiting) :
      Moves s (s.setEmit k { e with pc := .dropped })
  | finish : Moves s { s with finishes := s.finishes ++ [⟨.locking, .pending⟩] }
  | locked (j : Nat) (f : Finish) (hj : s.finishes[j]? = some f) (hpc : f.pc = .locking)
      (hholder : s.holder = none) (htaken : s.taken = none) :
      Moves s
        { s.setFinish j { f with pc := .sending } with taken := some j, holder := some j }
  | passed (j : Nat) (f : Finish) (hj : s.finishes[j]? = some f) (hpc : f.pc = .locking)
      (hholder : s.holder = none) (htaken : s.taken ≠ none) :
      Moves s (s.setFinish j { f with pc := .returned (.ok ()) })
  | finishSent (j : Nat) (f : Finish) (hj : s.finishes[j]? = some f) (hpc : f.pc = .sending)
      (hopen : s.writer ≠ .exited) :
      Moves s
        { s.setFinish j { f with pc := .awaiting } with queue := s.queue ++ [.finish j] }
  | finishClosed (j : Nat) (f : Finish) (hj : s.finishes[j]? = some f) (hpc : f.pc = .sending)
      (hclosed : s.writer = .exited) :
      Moves s { s.setFinish j { f with pc := .returned (.error "channel closed") } with
        holder := none }
  | finishAnswered (j : Nat) (f : Finish) (result : Except String Unit)
      (hj : s.finishes[j]? = some f) (hpc : f.pc = .awaiting)
      (hreply : f.reply = .sent result) :
      Moves s (s.setFinish j { f with pc := .joining result })
  | finishUnanswered (j : Nat) (f : Finish) (hj : s.finishes[j]? = some f)
      (hpc : f.pc = .awaiting) (hreply : f.reply = .lost) :
      Moves s { s.setFinish j { f with pc := .returned (.error "channel closed") } with
        holder := none }
  | finishJoined (j : Nat) (f : Finish) (result : Except String Unit)
      (hj : s.finishes[j]? = some f) (hpc : f.pc = .joining result)
      (hexited : s.writer = .exited) :
      Moves s { s.setFinish j { f with pc := .returned result } with holder := none }
  | finishDropped (j : Nat) (f : Finish) (holder : Option Nat)
      (hj : s.finishes[j]? = some f)
      (hholder : f.pc = .locking ∧ holder = s.holder ∨ f.pc.holds = true ∧ holder = none) :
      Moves s { s.setFinish j { f with pc := .dropped } with holder }
  | received (command : WriteCommand) (queue : List WriteCommand)
      (hwriter : s.writer = .receiving) (hqueue : s.queue = command :: queue) :
      Moves s { s with
        queue
        received := s.received ++ [command]
        tasks := s.tasks.map AckTask.reap
        writer := command.writer }
  | refused (k : Nat) (error : String) (hwriter : s.writer = .handling k)
      (hfailed : s.failed = some error) :
      Moves s { s.reply k (.error error) with writer := .receiving }
  | handed (k : Nat) (e : Emit) (ts : String) (hwriter : s.writer = .handling k)
      (hfailed : s.failed = none) (hk : s.emits[k]? = some e) :
      Moves s { s with
        seq := s.seq + 1
        tasks := s.tasks ++ [⟨.new e.event (some s.seq) ts, k, .storing⟩]
        writer := .receiving }
  | reaped (i : Nat) (t : AckTask) (result : Except String Unit) (hi : s.tasks[i]? = some t)
      (hpc : t.pc = .ended result) : Moves s (s.setTask i { t with pc := .reaped result })
  | replied (j : Nat) (result : Except String Unit) (hwriter : s.writer = .finishing j)
      (hall : ∀ t ∈ s.tasks, t.pc.isReaped = true)
      (hresult : result = match s.failed with
        | some error => .error error
        | none => .ok ()) :
      Moves s { s.replyFinish j result with writer := .leaving }
  | exited (hwriter : s.writer = .leaving) :
      Moves s { s with
        writer := .exited
        queue := []
        emits := s.emits.mapIdx fun k e =>
          if .event k ∈ s.queue then { e with reply := .lost } else e
        finishes := s.finishes.mapIdx fun j f =>
          if .finish j ∈ s.queue then { f with reply := .lost } else f }
  | completed (i : Nat) (t : AckTask) (completion : Completion) (hi : s.tasks[i]? = some t)
      (hpc : t.pc = .storing) :
      Moves s (s.setTask i { t with pc := .stored completion.result })
  | latched (i : Nat) (t : AckTask) (error : String) (hi : s.tasks[i]? = some t)
      (hpc : t.pc = .stored (.error error)) :
      Moves s ((s.latch error).setTask i { t with pc := .latched (.error error) })
  | unfailed (i : Nat) (t : AckTask) (hi : s.tasks[i]? = some t)
      (hpc : t.pc = .stored (.ok ())) :
      Moves s (s.setTask i { t with pc := .latched (.ok ()) })
  | acked (i : Nat) (t : AckTask) (result : Except String Unit) (hi : s.tasks[i]? = some t)
      (hpc : t.pc = .latched result) :
      Moves s ((s.reply t.call result).setTask i { t with pc := .acknowledged result })
  | ended (i : Nat) (t : AckTask) (result : Except String Unit) (hi : s.tasks[i]? = some t)
      (hpc : t.pc = .acknowledged result) :
      Moves s (s.setTask i { t with pc := .ended result })

/-! ### Inversion -/

theorem moves_call {s t : State} {k : Nat} {e : Emit} (hk : s.emits[k]? = some e)
    (h : stepSend s k e = some t ∨ stepAnswered s k e = some t ∨ stepDrop s k e = some t) :
    Moves s t := by
  rcases h with h | h | h
  · unfold stepSend at h
    split at h
    · next hpc =>
      split at h
      · next hclosed => exact Option.some.inj h ▸ .closed k e hk hpc hclosed
      · next hopen =>
        split at h
        · exact Option.some.inj h ▸ .sent k e hk hpc hopen
        · cases h
    · cases h
  · unfold stepAnswered at h
    split at h
    · next result hpc hreply => exact Option.some.inj h ▸ .answered k e result hk hpc hreply
    · next hpc hreply => exact Option.some.inj h ▸ .unanswered k e hk hpc hreply
    · cases h
  · unfold stepDrop at h
    split at h
    · next hpc => exact Option.some.inj h ▸ .dropped k e hk (Or.inl hpc)
    · next hpc => exact Option.some.inj h ▸ .dropped k e hk (Or.inr hpc)
    · cases h

theorem moves_finish {s t : State} {j : Nat} {f : Finish} (hj : s.finishes[j]? = some f)
    (h : stepLock s j f = some t ∨ stepSendFinish s j f = some t ∨
      stepAnsweredFinish s j f = some t ∨ stepJoined s j f = some t ∨
      stepDropFinish s j f = some t) : Moves s t := by
  rcases h with h | h | h | h | h
  · unfold stepLock at h
    split at h
    · next hpc hholder =>
      split at h
      · next htaken =>
        exact Option.some.inj h ▸
          .locked j f hj hpc hholder (Option.isNone_iff_eq_none.mp htaken)
      · next htaken =>
        refine Option.some.inj h ▸ .passed j f hj hpc hholder ?_
        intro hnone
        exact htaken (Option.isNone_iff_eq_none.mpr hnone)
    · cases h
  · unfold stepSendFinish at h
    split at h
    · next hpc =>
      split at h
      · next hclosed => exact Option.some.inj h ▸ .finishClosed j f hj hpc hclosed
      · next hopen =>
        split at h
        · exact Option.some.inj h ▸ .finishSent j f hj hpc hopen
        · cases h
    · cases h
  · unfold stepAnsweredFinish at h
    split at h
    · next result hpc hreply =>
      exact Option.some.inj h ▸ .finishAnswered j f result hj hpc hreply
    · next hpc hreply => exact Option.some.inj h ▸ .finishUnanswered j f hj hpc hreply
    · cases h
  · unfold stepJoined at h
    split at h
    · next result hpc =>
      split at h
      · next hexited => exact Option.some.inj h ▸ .finishJoined j f result hj hpc hexited
      · cases h
    · cases h
  · unfold stepDropFinish at h
    split at h
    · next hpc => exact Option.some.inj h ▸ .finishDropped j f s.holder hj (Or.inl ⟨hpc, rfl⟩)
    · next hpc =>
      exact Option.some.inj h ▸ .finishDropped j f none hj (Or.inr ⟨by rw [hpc]; rfl, rfl⟩)
    · next hpc =>
      exact Option.some.inj h ▸ .finishDropped j f none hj (Or.inr ⟨by rw [hpc]; rfl, rfl⟩)
    · next hpc =>
      exact Option.some.inj h ▸ .finishDropped j f none hj (Or.inr ⟨by rw [hpc]; rfl, rfl⟩)
    · cases h

theorem moves_writer {s t : State} (ts : String)
    (hcomplete : ∀ x ∈ s.tasks, x.pc.completes = true)
    (h : stepReceive s = some t ∨ stepHandle s ts = some t ∨ stepReply s = some t ∨
      stepExit s = some t) : Moves s t := by
  rcases h with h | h | h | h
  · unfold stepReceive at h
    split at h
    · next command queue hwriter hqueue =>
      have hmove := Moves.received (s := s) command queue hwriter hqueue
      rw [lost_eq hcomplete] at h
      obtain rfl := Option.some.inj h
      cases command <;> exact hmove
    · cases h
  · unfold stepHandle at h
    split at h
    · next k hwriter =>
      split at h
      · next error hfailed => exact Option.some.inj h ▸ .refused k error hwriter hfailed
      · next hfailed =>
        obtain ⟨e, hk, rfl⟩ := Option.map_eq_some_iff.mp h
        exact .handed k e ts hwriter hfailed hk
    · cases h
  · unfold stepReply at h
    split at h
    · next j hwriter =>
      split at h
      · next hall =>
        exact Option.some.inj h ▸ .replied j _ hwriter (List.all_eq_true.mp hall) rfl
      · cases h
    · cases h
  · unfold stepExit at h
    split at h
    · next hwriter => exact Option.some.inj h ▸ .exited hwriter
    · cases h

theorem moves_task {s u : State} {i : Nat} {t : AckTask} (completion : Completion)
    (hi : s.tasks[i]? = some t) (hcomplete : t.pc.completes = true)
    (h : stepReap s i t = some u ∨ stepComplete s i t completion = some u ∨
      stepLatch s i t = some u ∨ stepAck s i t = some u ∨ stepEnded s i t = some u) :
    Moves s u := by
  rcases h with h | h | h | h | h
  · unfold stepReap at h
    split at h
    · next result hwriter hpc => exact Option.some.inj h ▸ .reaped i t result hi hpc
    · next hwriter hpc =>
      rw [hpc] at hcomplete
      cases hcomplete
    · cases h
  · unfold stepComplete at h
    split at h
    · next hpc => exact Option.some.inj h ▸ .completed i t completion hi hpc
    · cases h
  · unfold stepLatch at h
    split at h
    · next error hpc => exact Option.some.inj h ▸ .latched i t error hi hpc
    · next hpc => exact Option.some.inj h ▸ .unfailed i t hi hpc
    · cases h
  · unfold stepAck at h
    split at h
    · next result hpc => exact Option.some.inj h ▸ .acked i t result hi hpc
    · cases h
  · unfold stepEnded at h
    split at h
    · next result hpc => exact Option.some.inj h ▸ .ended i t result hi hpc
    · cases h

/-- Every step is one of the listed moves. -/
theorem step_moves {s t : State} {l : Label}
    (hcomplete : ∀ x ∈ s.tasks, x.pc.completes = true) (h : step s l = some t) : Moves s t := by
  have htask : ∀ {i : Nat} {x : AckTask}, s.tasks[i]? = some x → x.pc.completes = true :=
    fun hi => hcomplete _ (List.mem_of_getElem? hi)
  cases l with
  | emit event => exact Option.some.inj h ▸ .emitted event
  | finish => exact Option.some.inj h ▸ .finish
  | send k =>
    obtain ⟨e, hk, h⟩ := Option.bind_eq_some_iff.mp h
    exact moves_call hk (Or.inl h)
  | answered k =>
    obtain ⟨e, hk, h⟩ := Option.bind_eq_some_iff.mp h
    exact moves_call hk (Or.inr (Or.inl h))
  | drop k =>
    obtain ⟨e, hk, h⟩ := Option.bind_eq_some_iff.mp h
    exact moves_call hk (Or.inr (Or.inr h))
  | lock j =>
    obtain ⟨f, hj, h⟩ := Option.bind_eq_some_iff.mp h
    exact moves_finish hj (Or.inl h)
  | sendFinish j =>
    obtain ⟨f, hj, h⟩ := Option.bind_eq_some_iff.mp h
    exact moves_finish hj (Or.inr (Or.inl h))
  | answeredFinish j =>
    obtain ⟨f, hj, h⟩ := Option.bind_eq_some_iff.mp h
    exact moves_finish hj (Or.inr (Or.inr (Or.inl h)))
  | joined j =>
    obtain ⟨f, hj, h⟩ := Option.bind_eq_some_iff.mp h
    exact moves_finish hj (Or.inr (Or.inr (Or.inr (Or.inl h))))
  | dropFinish j =>
    obtain ⟨f, hj, h⟩ := Option.bind_eq_some_iff.mp h
    exact moves_finish hj (Or.inr (Or.inr (Or.inr (Or.inr h))))
  | receive => exact moves_writer "" hcomplete (Or.inl h)
  | handle ts => exact moves_writer ts hcomplete (Or.inr (Or.inl h))
  | reply => exact moves_writer "" hcomplete (Or.inr (Or.inr (Or.inl h)))
  | exit => exact moves_writer "" hcomplete (Or.inr (Or.inr (Or.inr h)))
  | reap i =>
    obtain ⟨t, hi, h⟩ := Option.bind_eq_some_iff.mp h
    exact moves_task .ok hi (htask hi) (Or.inl h)
  | complete i completion =>
    obtain ⟨t, hi, h⟩ := Option.bind_eq_some_iff.mp h
    exact moves_task completion hi (htask hi) (Or.inr (Or.inl h))
  | latch i =>
    obtain ⟨t, hi, h⟩ := Option.bind_eq_some_iff.mp h
    exact moves_task .ok hi (htask hi) (Or.inr (Or.inr (Or.inl h)))
  | ack i =>
    obtain ⟨t, hi, h⟩ := Option.bind_eq_some_iff.mp h
    exact moves_task .ok hi (htask hi) (Or.inr (Or.inr (Or.inr (Or.inl h))))
  | ended i =>
    obtain ⟨t, hi, h⟩ := Option.bind_eq_some_iff.mp h
    exact moves_task .ok hi (htask hi) (Or.inr (Or.inr (Or.inr (Or.inr h))))

theorem reap_completes {t : AckTask} (h : t.pc.completes = true) :
    t.reap.pc.completes = true := by
  unfold AckTask.reap
  split
  · rfl
  · next hpc => rw [hpc] at h; cases h
  · exact h

/-- A panic of a store future is caught, so its task runs to its end. -/
theorem complete_tasks : ∀ s, sink.Reachable s → ∀ t ∈ s.tasks, t.pc.completes = true := by
  apply LTS.System.invariant
  · intro t ht
    cases ht
  · intro s l u hs _ hstep
    have hset : ∀ (i : Nat) (t' : AckTask), t'.pc.completes = true →
        ∀ t ∈ (s.setTask i t').tasks, t.pc.completes = true := by
      intro i t' ht' t ht
      rcases List.mem_or_eq_of_mem_set ht with ht | rfl
      · exact hs t ht
      · exact ht'
    cases step_moves hs hstep with
    | received command queue hwriter hqueue =>
      intro t ht
      obtain ⟨t', ht', rfl⟩ := List.mem_map.mp ht
      exact reap_completes (hs t' ht')
    | handed k e ts hwriter hfailed hk =>
      intro t ht
      rcases List.mem_append.mp ht with ht | ht
      · exact hs t ht
      · rw [List.mem_singleton.mp ht]
        rfl
    | reaped i t result hi hpc => exact hset i _ rfl
    | completed i t completion hi hpc => exact hset i _ rfl
    | latched i t error hi hpc => exact hset i _ rfl
    | unfailed i t hi hpc => exact hset i _ rfl
    | acked i t result hi hpc => exact hset i _ rfl
    | ended i t result hi hpc => exact hset i _ rfl
    | _ => exact hs

/-- From a reachable state every step is one of the listed moves. -/
theorem moves_of_step {s t : State} {l : Label} (hs : sink.Reachable s)
    (h : step s l = some t) : Moves s t :=
  step_moves (complete_tasks s hs) h

end Kyora.Sink
