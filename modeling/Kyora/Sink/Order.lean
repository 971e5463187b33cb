import Kyora.Sink.Progress

/-! # Durable ordering

  Records are stored with gapless numbers in the order their events were
  received, an emit succeeds only with its own record, an emit that begins
  after another one failed fails as well, and the first finish succeeds exactly
  when every event received before it was stored.
-/

namespace Kyora.Sink

open Trace (TraceEvent TraceRecord)

/-! ### Records and their calls -/

/-- Every record handed to the storage is that of an emit. -/
def Owned (s : State) : Prop :=
  ∀ t ∈ s.tasks, ∃ e, s.emits[t.call]? = some e ∧ t.record.event = e.event

theorem owned : ∀ s, sink.Reachable s → Owned s := by
  apply LTS.System.invariant_with (J := sink.Reachable) (P := Owned) (fun _ hs => hs)
  · intro t ht
    cases ht
  · intro s l u hs _ h _ hstep
    -- A task keeps its call and its record, and the call keeps its event.
    have hkept : ∀ t ∈ s.tasks, ∃ e, u.emits[t.call]? = some e ∧ t.record.event = e.event := by
      intro t ht
      obtain ⟨e, he, hevent⟩ := h t ht
      obtain ⟨e', he', htouched⟩ := emit_kept hs hstep he
      exact ⟨e', he', hevent.trans htouched.event.symm⟩
    have hset : ∀ {i : Nat} {x : AckTask} (pc : TaskPc), s.tasks[i]? = some x →
        ∀ t ∈ s.tasks.set i { x with pc },
          ∃ e, u.emits[t.call]? = some e ∧ t.record.event = e.event := by
      intro i x pc hi t ht
      rcases List.mem_or_eq_of_mem_set ht with ht | rfl
      · exact hkept t ht
      · exact hkept x (List.mem_of_getElem? hi)
    cases moves_of_step hs hstep with
    | received command queue hwriter hqueue =>
      intro t ht
      obtain ⟨x, hx, rfl⟩ := List.mem_map.mp ht
      rw [reap_call, reap_record]
      exact hkept x hx
    | handed k e ts hwriter hfailed hk =>
      intro t ht
      rcases List.mem_append.mp ht with ht | ht
      · exact hkept t ht
      · rw [List.mem_singleton.mp ht]
        exact ⟨e, hk, rfl⟩
    | reaped i x result hi hpc => exact hset _ hi
    | completed i x completion hi hpc => exact hset _ hi
    | latched i x error hi hpc => exact hset _ hi
    | unfailed i x hi hpc => exact hset _ hi
    | acked i x result hi hpc => exact hset _ hi
    | ended i x result hi hpc => exact hset _ hi
    | _ => exact hkept

theorem event_mem {commands : List WriteCommand} {k : Nat} :
    k ∈ commands.filterMap WriteCommand.event? ↔ .event k ∈ commands := by
  rw [List.mem_filterMap]
  constructor
  · rintro ⟨command, hc, hevent⟩
    cases command with
    | event n => exact Option.some.inj hevent ▸ hc
    | finish j => cases hevent
  · intro hc
    exact ⟨_, hc, rfl⟩

theorem calls_events {s : State} (hs : sink.Reachable s) :
    s.journal.calls <+: s.journal.events := by
  obtain ⟨refused, hevents, -⟩ := ordered_journal s hs
  rw [hevents, List.append_assoc]
  exact List.prefix_append _ _

/-- An event is received once. -/
theorem events_nodup {s : State} (hs : sink.Reachable s) : s.journal.events.Nodup := by
  have hreceived : s.received.Nodup := (List.nodup_append.mp (lined s hs).nodup).1
  refine hreceived.filterMap ?_
  intro c c' k hk hk'
  cases c with
  | finish j => cases hk
  | event n =>
    cases c' with
    | finish j => cases hk'
    | event n' =>
      rw [Option.mem_def] at hk hk'
      rw [Option.some.inj hk, Option.some.inj hk']

theorem calls_nodup {s : State} (hs : sink.Reachable s) : s.journal.calls.Nodup :=
  (events_nodup hs).sublist (calls_events hs).sublist

/-- A record is handed over only for a call that has begun. -/
theorem call_lt {s : State} (hs : sink.Reachable s) {t : AckTask} (ht : t ∈ s.tasks) :
    t.call < s.emits.length := by
  obtain ⟨e, he, -⟩ := owned s hs t ht
  exact (List.getElem?_eq_some_iff.mp he).1

/-! ### The first finish -/

/-- With every acknowledgement joined, there is no failure exactly when every
    event was stored. -/
theorem outcome_iff {s : State} (hs : sink.Reachable s)
    (hover : s.writer = .leaving ∨ s.writer = .exited) :
    s.journal.outcome = .ok () ↔ ∀ k ∈ s.journal.events, s.journal.StoredOk k := by
  have hblamed := blamed_journal s hs
  have hreaped := (closing_journal s hs).reaped hover
  constructor
  · intro hok k hk
    have hfailed : s.failed = none := by
      unfold Journal.outcome at hok
      split at hok
      · cases hok
      · next hnone => exact hnone
    obtain ⟨refused, hevents, hrefused⟩ := ordered_journal s hs
    have hnone : refused = [] := by
      by_contra hne
      exact hrefused hne hfailed
    have hcurrent : s.journal.writer.current = [] := by
      rcases hover with hwriter | hwriter
      · rw [show s.journal.writer = .leaving from hwriter]
        rfl
      · rw [show s.journal.writer = .exited from hwriter]
        rfl
    rw [hevents, hnone, hcurrent, List.append_nil, List.append_nil] at hk
    obtain ⟨t, ht, hcall⟩ := List.mem_map.mp hk
    refine ⟨t, ht, hcall, ?_⟩
    -- The task passed on its result, and with a failure it would have latched it.
    have hcomplete := complete_tasks s hs t ht
    have hdone := hreaped t ht
    cases hpc : t.pc with
    | reaped result =>
      cases result with
      | ok value => rfl
      | error error => exact absurd hfailed (hblamed.reported t ht error (by rw [hpc]; rfl))
    | lost => rw [hpc] at hcomplete; cases hcomplete
    | _ => rw [hpc] at hdone; cases hdone
  · intro hall
    unfold Journal.outcome
    split
    · next error hfailed =>
      have hmem : error ∈ s.journal.errors := by
        apply List.mem_of_mem_head?
        rw [← hblamed.first, hfailed]
        exact rfl
      obtain ⟨t, ht, hresult⟩ := hblamed.blamed error hmem
      have hcall : t.call ∈ s.journal.events :=
        (calls_events hs).subset (List.mem_map_of_mem ht)
      obtain ⟨t', ht', hcall', hok⟩ := hall _ hcall
      obtain rfl := List.inj_on_of_nodup_map (calls_nodup hs) ht' ht hcall'
      cases hok.symm.trans hresult
    · rfl

/-! ### The claim of the sink -/

/-- The event of call `k` was given to `store`, whose future completed `Ok`. -/
def State.Stored (s : State) (k : Nat) : Prop :=
  ∃ t ∈ s.tasks, t.call = k ∧ t.pc.result = some (.ok ())

structure Durable (s : State) : Prop where
  /-- `store` is called with the sequence numbers 0, 1, 2, ... -/
  numbered : s.tasks.map (fun t => t.record.seq) = (List.range s.tasks.length).map some
  /-- It is called in the order in which the events were received, -/
  order : s.tasks.map AckTask.call <+: s.received.filterMap WriteCommand.event?
  /-- once for an emit, -/
  once : (s.tasks.map AckTask.call).Nodup
  /-- with the event of that emit. -/
  own : ∀ t ∈ s.tasks, ∃ e, s.emits[t.call]? = some e ∧ t.record.event = e.event
  /-- An emit returns `Ok` only if its own record was stored. -/
  acknowledged : ∀ (k : Nat) (e : Emit), s.emits[k]? = some e → e.event.ephemeral = false →
    e.pc = .returned (.ok ()) → s.Stored k
  /-- Once some emit returned an error, the event of an emit called later is never
      given to `store`, and all it can return is an error. -/
  late : ∀ (k : Nat) (e : Emit) (error : String), s.emits[k]? = some e →
    e.pc = .returned (.error error) → ∀ ls u, sink.run s ls = some u →
    ∀ (n : Nat) (x : Emit), s.emits.length ≤ n → u.emits[n]? = some x →
      x.event.ephemeral = false →
      n ∉ u.tasks.map AckTask.call ∧ x.pc ≠ .returned (.ok ()) ∧
        (Quiescent u → x.pc = .dropped ∨ ∃ error, x.pc = .returned (.error error))
  /-- The first finish returns `Ok` exactly if every event received before it was
      stored, and else the error that was latched first. -/
  finished : ∀ (j : Nat) (f : Finish) (result : Except String Unit), s.taken = some j →
    s.finishes[j]? = some f → f.pc = .returned result →
    ∃ ks : List Nat, s.received = ks.map .event ++ [.finish j] ∧
      (result = .ok () ↔ ∀ k ∈ ks, s.Stored k) ∧
      ∀ error, result = .error error → s.errors.head? = some error
  /-- Every call comes to an end, if the store futures and the runtime go on. -/
  ends : (Quiescent s → (∀ e ∈ s.emits, e.pc.isOver = true) ∧
      ∀ f ∈ s.finishes, f.pc.isOver = true) ∧
    ∀ ls u, sink.run s ls = some u →
      ls.length + u.weight + 13 * s.calls ≤ s.weight + 13 * u.calls

/-- The durable sink keeps its promises in every state it reaches. -/
theorem durable_sink (s : State) (h : sink.Reachable s) : Durable s := by
  refine ⟨(numbered_journal s h).seqs, calls_events h, calls_nodup h, owned s h, ?_, ?_, ?_,
    ?_, fun ls u hrun => run_bound h hrun⟩
  · intro k e hk hevent hpc
    exact (emits_sound s h k e hk).ok hevent hpc
  · intro k e error hk hpc ls u hrun n x hn hx hevent
    have hu : sink.Reachable u := h.run hrun
    obtain ⟨-, hcalls⟩ := shut_run h ((emits_sound s h k e hk).err error hpc) hrun
    have hnot : n ∉ u.tasks.map AckTask.call := by
      intro hmem
      rw [show u.tasks.map AckTask.call = s.tasks.map AckTask.call from hcalls] at hmem
      obtain ⟨t, ht, rfl⟩ := List.mem_map.mp hmem
      exact absurd (call_lt h ht) (Nat.not_lt.mpr hn)
    have hok : x.pc ≠ .returned (.ok ()) := by
      intro hpc'
      obtain ⟨t, ht, hcall, -⟩ := (emits_sound u hu n x hx).ok hevent hpc'
      exact hnot (hcall ▸ List.mem_map_of_mem ht)
    refine ⟨hnot, hok, ?_⟩
    intro hquiet
    have hover := quiescent_emits hu hquiet hx
    cases hpc' : x.pc with
    | dropped => exact Or.inl rfl
    | returned result =>
      cases result with
      | ok value => exact absurd hpc' hok
      | error error => exact Or.inr ⟨error, rfl⟩
    | sending => rw [hpc'] at hover; cases hover
    | awaiting => rw [hpc'] at hover; cases hover
  · intro j f result htaken hj hpc
    obtain ⟨hexited, rfl⟩ := (finishes_sound s h j f hj).returned result htaken hpc
    obtain ⟨n, ks, hn, hreceived⟩ := received_finish h (Or.inr hexited)
    obtain rfl : n = j := Option.some.inj (hn.symm.trans htaken)
    refine ⟨ks, hreceived, ?_, ?_⟩
    · have hevents : ∀ k, k ∈ s.journal.events ↔ k ∈ ks := by
        intro k
        rw [Journal.events, show s.journal.received = _ from hreceived, event_mem]
        simp
      rw [outcome_iff h (Or.inr hexited)]
      constructor
      · intro hall k hk
        exact hall k ((hevents k).mpr hk)
      · intro hall k hk
        exact hall k ((hevents k).mp hk)
    · intro error herror
      unfold Journal.outcome at herror
      split at herror
      · next error' hfailed =>
        cases herror
        exact (blamed_journal s h).first.symm.trans hfailed
      · cases herror
  · intro hquiet
    constructor
    · intro e he
      obtain ⟨k, hk⟩ := List.mem_iff_getElem?.mp he
      exact quiescent_emits h hquiet hk
    · intro f hf
      obtain ⟨j, hj⟩ := List.mem_iff_getElem?.mp hf
      exact quiescent_finishes h hquiet hj

/-- Whether a call has returned, and how. -/
def EmitPc.isOk : EmitPc → Option Bool
  | .returned (.ok ()) => some true
  | .returned (.error _) => some false
  | _ => none

/-- Two events are stored, the storage refuses the second, and a third event comes
    too late. -/
def failingLabels : List Label :=
  [.emit (.sessionEnd .completed), .emit (.sessionEnd .failed), .send 1, .send 0,
    .receive, .handle "t", .receive, .handle "t", .complete 1 .ok, .complete 0 .panicked,
    .latch 0, .latch 1, .ack 0, .answered 1, .ended 0, .ack 1, .answered 0,
    .emit (.error 0 "late"), .send 2, .receive, .handle "t", .answered 2, .finish, .lock 0,
    .sendFinish 0, .receive, .ended 1, .reap 1, .reply, .exit, .answeredFinish 0, .joined 0]

theorem durable_sink_failed : ∃ s, sink.Reachable s ∧
    s.tasks.map AckTask.call = [1, 0] ∧
    s.emits.map (fun e => e.pc.isOk) = [some true, some false, some false] ∧
    s.errors = ["trace store panicked"] ∧ Durable s := by
  have hrun : (sink.run sink.init failingLabels).map (fun s =>
      (s.tasks.map AckTask.call, s.emits.map (fun e => e.pc.isOk), s.errors)) =
      some ([1, 0], [some true, some false, some false], ["trace store panicked"]) := by
    decide +kernel
  obtain ⟨s, hs, heq⟩ := Option.map_eq_some_iff.mp hrun
  simp only [Prod.mk.injEq] at heq
  have hreach : sink.Reachable s := LTS.System.reachable_of_run hs
  exact ⟨s, hreach, heq.1, heq.2.1, heq.2.2, durable_sink s hreach⟩

end Kyora.Sink
