import Kyora.Sink.Steps

/-! # What the writer stores

  The journal is the writer's side of the sink: the commands, the tasks and
  the latched failure. Calls reach it only by adding to the queue. The records
  handed to the storage are a prefix of the events received, with gapless
  sequence numbers, and an event is left out only after a failure was latched.
-/

namespace Kyora.Sink

open Trace (TraceEvent TraceRecord)

/-- The writer's side of the sink. -/
structure Journal where
  received : List WriteCommand
  queue : List WriteCommand
  writer : WriterPc
  seq : Nat
  tasks : List AckTask
  failed : Option String
  errors : List String

def State.journal (s : State) : Journal :=
  ⟨s.received, s.queue, s.writer, s.seq, s.tasks, s.failed, s.errors⟩

/-- The progress of a task that latches nothing. -/
inductive TaskPc.Next : TaskPc → TaskPc → Prop where
  | stored (result : Except String Unit) : Next .storing (.stored result)
  | latched : Next (.stored (.ok ())) (.latched (.ok ()))
  | acknowledged (result : Except String Unit) : Next (.latched result) (.acknowledged result)
  | ended (result : Except String Unit) : Next (.acknowledged result) (.ended result)
  | reaped (result : Except String Unit) : Next (.ended result) (.reaped result)

/-- The steps of a journal. -/
inductive Journal.Step (m : Journal) : Journal → Prop where
  | enqueue (command : WriteCommand) (hopen : m.writer ≠ .exited) :
      Step m { m with queue := m.queue ++ [command] }
  | receive (command : WriteCommand) (queue : List WriteCommand)
      (hwriter : m.writer = .receiving) (hqueue : m.queue = command :: queue) :
      Step m { m with
        queue
        received := m.received ++ [command]
        tasks := m.tasks.map AckTask.reap
        writer := command.writer }
  | refuse (k : Nat) (hwriter : m.writer = .handling k) (hfailed : m.failed ≠ none) :
      Step m { m with writer := .receiving }
  | store (k : Nat) (record : TraceRecord) (hwriter : m.writer = .handling k)
      (hfailed : m.failed = none) (hseq : record.seq = some m.seq) :
      Step m { m with
        seq := m.seq + 1
        tasks := m.tasks ++ [⟨record, k, .storing⟩]
        writer := .receiving }
  | move (i : Nat) (t : AckTask) (pc : TaskPc) (hi : m.tasks[i]? = some t)
      (hnext : t.pc.Next pc) : Step m { m with tasks := m.tasks.set i { t with pc } }
  | latch (i : Nat) (t : AckTask) (error : String) (hi : m.tasks[i]? = some t)
      (hpc : t.pc = .stored (.error error)) :
      Step m { m with
        tasks := m.tasks.set i { t with pc := .latched (.error error) }
        failed := some (m.failed.getD error)
        errors := m.errors ++ [error] }
  | leave (j : Nat) (hwriter : m.writer = .finishing j)
      (hall : ∀ t ∈ m.tasks, t.pc.isReaped = true) : Step m { m with writer := .leaving }
  | exit (hwriter : m.writer = .leaving) : Step m { m with writer := .exited, queue := [] }

/-- A step of the sink is one of its journal, or leaves the journal as it is. -/
theorem journal_step {s t : State} {l : Label} (h : sink.Reachable s)
    (hstep : step s l = some t) :
    t.journal = s.journal ∨ Journal.Step s.journal t.journal := by
  have hnext : ∀ (i : Nat) (x : AckTask) (pc : TaskPc), s.tasks[i]? = some x →
      x.pc.Next pc → Journal.Step s.journal (s.setTask i { x with pc }).journal :=
    fun i x pc hi hx => .move i x pc hi hx
  cases moves_of_step h hstep with
  | sent k e hk hpc hopen => exact Or.inr (.enqueue (.event k) hopen)
  | finishSent j f hj hpc hopen => exact Or.inr (.enqueue (.finish j) hopen)
  | received command queue hwriter hqueue =>
    exact Or.inr (.receive command queue hwriter hqueue)
  | refused k error hwriter hfailed =>
    refine Or.inr (.refuse k hwriter ?_)
    intro hnone
    cases hfailed.symm.trans hnone
  | handed k e ts hwriter hfailed hk =>
    exact Or.inr (.store k (.new e.event (some s.seq) ts) hwriter hfailed rfl)
  | replied j result hwriter hall hresult => exact Or.inr (.leave j hwriter hall)
  | exited hwriter => exact Or.inr (.exit hwriter)
  | latched i x error hi hpc => exact Or.inr (.latch i x error hi hpc)
  | reaped i x result hi hpc => exact Or.inr (hnext i x _ hi (hpc ▸ .reaped result))
  | completed i x completion hi hpc =>
    exact Or.inr (hnext i x _ hi (hpc ▸ .stored completion.result))
  | unfailed i x hi hpc => exact Or.inr (hnext i x _ hi (hpc ▸ .latched))
  | acked i x result hi hpc => exact Or.inr (hnext i x _ hi (hpc ▸ .acknowledged result))
  | ended i x result hi hpc => exact Or.inr (hnext i x _ hi (hpc ▸ .ended result))
  | _ => exact Or.inl rfl

/-- What the steps of a journal keep holds of every journal the sink reaches. -/
theorem journal_invariant {P : Journal → Prop} (hinit : P sink.init.journal)
    (hstep : ∀ m m', P m → Journal.Step m m' → P m') :
    ∀ s, sink.Reachable s → P s.journal := by
  apply LTS.System.invariant_with (P := fun s : State => P s.journal) (fun _ hs => hs) hinit
  intro s l t hs _ hP _ hl
  rcases journal_step hs hl with heq | hnext
  · rw [heq]
    exact hP
  · exact hstep _ _ hP hnext

/-! ### Results -/

/-- The result a task has passed on. -/
def TaskPc.reported : TaskPc → Option (Except String Unit)
  | .latched r | .acknowledged r | .ended r | .reaped r => some r
  | _ => none

theorem TaskPc.Next.result {pc pc' : TaskPc} (h : pc.Next pc') {r : Except String Unit}
    (hr : pc.result = some r) : pc'.result = some r := by
  cases h with
  | stored result => cases hr
  | _ => exact hr

/-- Without latching, a task passes on no new error. -/
theorem TaskPc.Next.reported {pc pc' : TaskPc} (h : pc.Next pc') {error : String}
    (hr : pc'.reported = some (.error error)) : pc.reported = some (.error error) := by
  cases h with
  | stored result => cases hr
  | latched => cases hr
  | _ => exact hr

theorem reap_call (t : AckTask) : t.reap.call = t.call := by
  unfold AckTask.reap
  split <;> rfl

theorem reap_record (t : AckTask) : t.reap.record = t.record := by
  unfold AckTask.reap
  split <;> rfl

theorem reap_result (t : AckTask) : t.reap.pc.result = t.pc.result := by
  unfold AckTask.reap
  split
  · next r hpc => rw [hpc]; rfl
  · next hpc => rw [hpc]; rfl
  · rfl

theorem reap_reported (t : AckTask) : t.reap.pc.reported = t.pc.reported := by
  unfold AckTask.reap
  split
  · next r hpc => rw [hpc]; rfl
  · next hpc => rw [hpc]; rfl
  · rfl

/-- Storing a task again with another pc changes neither calls nor records. -/
theorem map_set_pc {β : Type} (f : AckTask → β) {tasks : List AckTask} {i : Nat} {t : AckTask}
    {pc : TaskPc} (hi : tasks[i]? = some t) (hf : f { t with pc } = f t) :
    (tasks.set i { t with pc }).map f = tasks.map f := by
  rw [List.map_set, hf]
  apply List.ext_getElem?
  intro n
  by_cases hn : i = n
  · subst hn
    have hlt : i < (tasks.map f).length := by
      rw [List.length_map]
      exact (List.getElem?_eq_some_iff.mp hi).1
    rw [List.getElem?_set_self hlt, List.getElem?_map, hi]
    rfl
  · rw [List.getElem?_set_ne hn]

theorem map_reap {β : Type} (f : AckTask → β) (hf : ∀ t, f t.reap = f t)
    (tasks : List AckTask) : (tasks.map AckTask.reap).map f = tasks.map f := by
  rw [List.map_map]
  exact List.map_congr_left fun t _ => hf t

/-! ### Sequence numbers -/

/-- The records are numbered from zero without a gap. -/
structure Numbered (m : Journal) : Prop where
  seq : m.seq = m.tasks.length
  seqs : m.tasks.map (fun t => t.record.seq) = (List.range m.tasks.length).map some

theorem seqs_move {tasks : List AckTask} {i : Nat} {t : AckTask} {pc : TaskPc}
    (hi : tasks[i]? = some t) :
    (tasks.set i { t with pc }).map (fun t => t.record.seq) =
      tasks.map fun t => t.record.seq :=
  map_set_pc (fun t => t.record.seq) hi rfl

theorem numbered_step {m m' : Journal} (h : Numbered m) (hstep : m.Step m') : Numbered m' := by
  cases hstep with
  | receive command queue hwriter hqueue =>
    constructor
    · rw [List.length_map]
      exact h.seq
    · show (m.tasks.map AckTask.reap).map _ = _
      rw [map_reap _ (fun t => by rw [reap_record]), List.length_map]
      exact h.seqs
  | store k record hwriter hfailed hseq =>
    constructor
    · rw [List.length_append, List.length_singleton, ← h.seq]
    · rw [List.map_append, List.length_append, List.length_singleton, List.range_succ,
        List.map_append, h.seqs, ← h.seq]
      simp only [List.map_cons, List.map_nil, hseq]
  | move i t pc hi hnext =>
    constructor
    · rw [List.length_set]
      exact h.seq
    · rw [seqs_move hi, List.length_set]
      exact h.seqs
  | latch i t error hi hpc =>
    constructor
    · rw [List.length_set]
      exact h.seq
    · rw [seqs_move hi, List.length_set]
      exact h.seqs
  | _ => exact ⟨h.seq, h.seqs⟩

/-! ### Order -/

/-- The event the writer has taken and not handled yet. -/
def WriterPc.current : WriterPc → List Nat
  | .handling k => [k]
  | _ => []

/-- The events received, in order. -/
def Journal.events (m : Journal) : List Nat := m.received.filterMap WriteCommand.event?

/-- The calls whose events were handed to the storage, in order. -/
def Journal.calls (m : Journal) : List Nat := m.tasks.map AckTask.call

/-- The events handed over come first; others follow only after a failure. -/
def Ordered (m : Journal) : Prop :=
  ∃ refused, m.events = m.calls ++ refused ++ m.writer.current ∧
    (refused ≠ [] → m.failed ≠ none)

theorem calls_move {m : Journal} {i : Nat} {t : AckTask} {pc : TaskPc}
    (hi : m.tasks[i]? = some t) :
    (m.tasks.set i { t with pc }).map AckTask.call = m.calls :=
  map_set_pc AckTask.call hi rfl

theorem ordered_step {m m' : Journal} (h : Ordered m) (hstep : m.Step m') : Ordered m' := by
  obtain ⟨refused, hevents, hfailed'⟩ := h
  cases hstep with
  | receive command queue hwriter hqueue =>
    refine ⟨refused, ?_, hfailed'⟩
    have hcurrent : command.writer.current = [command].filterMap WriteCommand.event? := by
      cases command <;> rfl
    have hnone : WriterPc.receiving.current = [] := rfl
    rw [hwriter, hnone, List.append_nil] at hevents
    simp only [Journal.events, Journal.calls, List.filterMap_append,
      map_reap _ reap_call, hcurrent] at hevents ⊢
    rw [hevents]
  | refuse k hwriter hfailed =>
    refine ⟨refused ++ [k], ?_, fun _ => hfailed⟩
    rw [hwriter] at hevents
    simpa [Journal.events, Journal.calls, WriterPc.current] using hevents
  | store k record hwriter hfailed hseq =>
    -- Nothing was refused so far, so the event extends the stored ones.
    have hnone : refused = [] := by
      by_contra hne
      exact hfailed' hne hfailed
    refine ⟨[], ?_, fun hne => absurd rfl hne⟩
    rw [hwriter, hnone] at hevents
    simpa [Journal.events, Journal.calls, WriterPc.current] using hevents
  | move i t pc hi hnext =>
    refine ⟨refused, ?_, hfailed'⟩
    simp only [Journal.calls]
    rw [calls_move hi]
    exact hevents
  | latch i t error hi hpc =>
    refine ⟨refused, ?_, fun _ => by simp⟩
    simp only [Journal.calls]
    rw [calls_move hi]
    exact hevents
  | enqueue command hopen => exact ⟨refused, hevents, hfailed'⟩
  | leave j hwriter hall =>
    refine ⟨refused, ?_, hfailed'⟩
    rw [hwriter] at hevents
    exact hevents
  | exit hwriter =>
    refine ⟨refused, ?_, hfailed'⟩
    rw [hwriter] at hevents
    exact hevents

/-! ### Failures -/

/-- The failure is the first error, and every error is that of a store future. -/
structure Blamed (m : Journal) : Prop where
  first : m.failed = m.errors.head?
  reported : ∀ t ∈ m.tasks, ∀ error, t.pc.reported = some (.error error) → m.failed ≠ none
  blamed : ∀ error ∈ m.errors, ∃ t ∈ m.tasks, t.pc.result = some (.error error)

/-- The result of a task stays when a task moves. -/
theorem result_mem_set {tasks : List AckTask} {i : Nat} {t : AckTask} {pc : TaskPc}
    (hi : tasks[i]? = some t) (hpc : ∀ r, t.pc.result = some r → pc.result = some r)
    {r : Except String Unit} (h : ∃ x ∈ tasks, x.pc.result = some r) :
    ∃ x ∈ tasks.set i { t with pc }, x.pc.result = some r := by
  obtain ⟨x, hx, hr⟩ := h
  obtain ⟨n, hn⟩ := List.mem_iff_getElem?.mp hx
  by_cases hne : i = n
  · subst hne
    obtain rfl : t = x := Option.some.inj (hi.symm.trans hn)
    have hlt : i < tasks.length := (List.getElem?_eq_some_iff.mp hi).1
    exact ⟨_, List.mem_of_getElem? (List.getElem?_set_self hlt), hpc r hr⟩
  · exact ⟨x, List.mem_of_getElem? ((List.getElem?_set_ne hne).trans hn), hr⟩

theorem blamed_step {m m' : Journal} (h : Blamed m) (hstep : m.Step m') : Blamed m' := by
  cases hstep with
  | receive command queue hwriter hqueue =>
    refine ⟨h.first, ?_, ?_⟩
    · intro t ht error hr
      obtain ⟨x, hx, rfl⟩ := List.mem_map.mp ht
      rw [reap_reported] at hr
      exact h.reported x hx error hr
    · intro error herror
      obtain ⟨x, hx, hr⟩ := h.blamed error herror
      exact ⟨x.reap, List.mem_map_of_mem hx, by rw [reap_result, hr]⟩
  | store k record hwriter hfailed hseq =>
    refine ⟨h.first, ?_, ?_⟩
    · intro t ht error hr
      rcases List.mem_append.mp ht with ht | ht
      · exact h.reported t ht error hr
      · rw [List.mem_singleton.mp ht] at hr
        cases hr
    · intro error herror
      obtain ⟨x, hx, hr⟩ := h.blamed error herror
      exact ⟨x, List.mem_append_left _ hx, hr⟩
  | move i t pc hi hnext =>
    refine ⟨h.first, ?_, ?_⟩
    · intro x hx error hr
      rcases List.mem_or_eq_of_mem_set hx with hx | rfl
      · exact h.reported x hx error hr
      · exact h.reported t (List.mem_of_getElem? hi) error (hnext.reported hr)
    · intro error herror
      exact result_mem_set hi (fun r => hnext.result) (h.blamed error herror)
  | latch i t error hi hpc =>
    have hresult : ∀ r, t.pc.result = some r →
        (TaskPc.latched (.error error)).result = some r := by
      intro r hr
      rw [hpc] at hr
      exact hr
    refine ⟨?_, fun _ _ _ _ => by simp, ?_⟩
    · show some (m.failed.getD error) = (m.errors ++ [error]).head?
      rw [h.first]
      cases m.errors <;> rfl
    · intro error' herror
      rcases List.mem_append.mp herror with herror | herror
      · exact result_mem_set hi hresult (h.blamed error' herror)
      · rw [List.mem_singleton.mp herror]
        have hlt : i < m.tasks.length := (List.getElem?_eq_some_iff.mp hi).1
        exact ⟨_, List.mem_of_getElem? (List.getElem?_set_self hlt), rfl⟩
  | _ => exact ⟨h.first, h.reported, h.blamed⟩

/-! ### The end -/

/-- Where the writer is in the commands: it takes one command to finish, the
    last one it receives. -/
def WriterPc.Follows (received : List WriteCommand) : WriterPc → Prop
  | .receiving | .handling _ => ∀ j, .finish j ∉ received
  | .finishing j => ∃ ks : List Nat, received = ks.map .event ++ [.finish j]
  | .leaving | .exited => ∃ j, ∃ ks : List Nat, received = ks.map .event ++ [.finish j]

/-- Commands without a finish are events. -/
theorem exists_events {commands : List WriteCommand} (h : ∀ j, .finish j ∉ commands) :
    ∃ ks : List Nat, commands = ks.map .event := by
  induction commands with
  | nil => exact ⟨[], rfl⟩
  | cons command rest ih =>
    obtain ⟨ks, rfl⟩ := ih fun j hj => h j (List.mem_cons_of_mem _ hj)
    cases command with
    | event k => exact ⟨k :: ks, rfl⟩
    | finish j => exact absurd List.mem_cons_self (h j)

structure Closing (m : Journal) : Prop where
  follows : m.writer.Follows m.received
  reaped : m.writer = .leaving ∨ m.writer = .exited → ∀ t ∈ m.tasks, t.pc.isReaped = true
  queue : m.writer = .exited → m.queue = []

/-- Once the writer leaves no task moves any more. -/
theorem not_next_of_reaped {pc pc' : TaskPc} (h : pc.isReaped = true) : ¬ pc.Next pc' := by
  intro hnext
  cases hnext <;> cases h

theorem closing_step {m m' : Journal} (h : Closing m) (hstep : m.Step m') : Closing m' := by
  cases hstep with
  | enqueue command hopen =>
    exact ⟨h.follows, h.reaped, fun hexited => absurd hexited hopen⟩
  | receive command queue hwriter hqueue =>
    have hfollows := h.follows
    rw [hwriter] at hfollows
    obtain ⟨ks, hks⟩ := exists_events hfollows
    constructor
    · cases command with
      | event k =>
        intro j hj
        rcases List.mem_append.mp hj with hj | hj
        · exact hfollows j hj
        · cases List.mem_singleton.mp hj
      | finish j => exact ⟨ks, by rw [hks]⟩
    · intro hover
      cases command <;> simp [WriteCommand.writer] at hover
    · intro hover
      cases command <;> cases hover
  | refuse k hwriter hfailed =>
    have hfollows := h.follows
    rw [hwriter] at hfollows
    exact ⟨hfollows, by simp, by simp⟩
  | store k record hwriter hfailed hseq =>
    have hfollows := h.follows
    rw [hwriter] at hfollows
    exact ⟨hfollows, by simp, by simp⟩
  | move i t pc hi hnext =>
    refine ⟨h.follows, ?_, h.queue⟩
    intro hover
    exact absurd hnext (not_next_of_reaped (h.reaped hover t (List.mem_of_getElem? hi)))
  | latch i t error hi hpc =>
    refine ⟨h.follows, ?_, h.queue⟩
    intro hover
    have hreaped := h.reaped hover t (List.mem_of_getElem? hi)
    rw [hpc] at hreaped
    cases hreaped
  | leave j hwriter hall =>
    have hfollows := h.follows
    rw [hwriter] at hfollows
    exact ⟨⟨j, hfollows⟩, fun _ => hall, by simp⟩
  | exit hwriter =>
    have hfollows := h.follows
    rw [hwriter] at hfollows
    exact ⟨hfollows, fun _ => h.reaped (Or.inl hwriter), fun _ => rfl⟩

/-! ### Reachable journals -/

theorem numbered_journal : ∀ s, sink.Reachable s → Numbered s.journal :=
  journal_invariant ⟨rfl, rfl⟩ fun _ _ => numbered_step

theorem ordered_journal : ∀ s, sink.Reachable s → Ordered s.journal :=
  journal_invariant ⟨[], rfl, fun hne => absurd rfl hne⟩ fun _ _ => ordered_step

theorem blamed_journal : ∀ s, sink.Reachable s → Blamed s.journal :=
  journal_invariant
    ⟨rfl, (fun _ ht => absurd ht List.not_mem_nil), (fun _ he => absurd he List.not_mem_nil)⟩
    fun _ _ => blamed_step

theorem closing_journal : ∀ s, sink.Reachable s → Closing s.journal :=
  journal_invariant
    ⟨fun _ => List.not_mem_nil, fun _ _ ht => absurd ht List.not_mem_nil, fun _ => rfl⟩
    fun _ _ => closing_step

/-! ### After a failure -/

/-- Nothing more is handed to the storage. -/
def Journal.Shut (m : Journal) : Prop := m.failed ≠ none ∨ m.writer = .exited

theorem shut_step {m m' : Journal} (h : m.Shut) (hstep : m.Step m') :
    m'.Shut ∧ m'.calls = m.calls := by
  cases hstep with
  | enqueue command hopen => exact ⟨h, rfl⟩
  | receive command queue hwriter hqueue =>
    refine ⟨Or.inl ?_, map_reap _ reap_call _⟩
    rcases h with hfailed | hexited
    · exact hfailed
    · cases hwriter.symm.trans hexited
  | refuse k hwriter hfailed => exact ⟨Or.inl hfailed, rfl⟩
  | store k record hwriter hfailed hseq =>
    rcases h with hne | hexited
    · exact absurd hfailed hne
    · cases hwriter.symm.trans hexited
  | move i t pc hi hnext => exact ⟨h, calls_move hi⟩
  | latch i t error hi hpc => exact ⟨Or.inl (by simp), calls_move hi⟩
  | leave j hwriter hall =>
    refine ⟨Or.inl ?_, rfl⟩
    rcases h with hfailed | hexited
    · exact hfailed
    · cases hwriter.symm.trans hexited
  | exit hwriter => exact ⟨Or.inr rfl, rfl⟩

/-- From a journal that is shut no run hands another event to the storage. -/
theorem shut_run {s u : State} {ls : List Label} (hs : sink.Reachable s) (h : s.journal.Shut)
    (hrun : sink.run s ls = some u) : u.journal.Shut ∧ u.journal.calls = s.journal.calls := by
  have hstep : ∀ x l y,
      sink.Reachable x ∧ x.journal.Shut ∧ x.journal.calls = s.journal.calls →
      sink.step x l = some y →
      sink.Reachable y ∧ y.journal.Shut ∧ y.journal.calls = s.journal.calls := by
    intro x l y hx hl
    obtain ⟨hreach, hshut, hcalls⟩ := hx
    refine ⟨hreach.next hl, ?_⟩
    rcases journal_step hreach hl with heq | hnext
    · rw [heq]
      exact ⟨hshut, hcalls⟩
    · obtain ⟨hshut', hcalls'⟩ := shut_step hshut hnext
      exact ⟨hshut', hcalls'.trans hcalls⟩
  exact (sink.run_invariant hstep ⟨hs, h, rfl⟩ hrun).2

end Kyora.Sink
