import Kyora.Framework.Pool
import Kyora.Sink.Journal

/-! # What a call of `emit` is told

  `Lined`: every command stands once in the line of the writer, and its call
  has sent it. `Emit.Sound`: an emit is told that its event was stored only
  after its own store future completed, and is told of an error only after one
  was latched or the queue was closed.
-/

namespace Kyora.Sink

open Trace (TraceEvent TraceRecord)

/-! ### How one step changes a call -/

/-- What a step from `s` to `t` makes of the call `k` of `emit`. -/
inductive Touched (s t : State) (k : Nat) (e : Emit) : Emit → Prop where
  | same : Touched s t k e e
  | sent (hpc : e.pc = .sending) (hqueue : .event k ∈ t.queue) :
      Touched s t k e { e with pc := .awaiting }
  | closed (hclosed : s.writer = .exited) :
      Touched s t k e { e with pc := .returned (.error "channel closed") }
  | answered (result : Except String Unit) (hreply : e.reply = .sent result) :
      Touched s t k e { e with pc := .returned result }
  | unanswered (hreply : e.reply = .lost) :
      Touched s t k e { e with pc := .returned (.error "channel closed") }
  | dropped : Touched s t k e { e with pc := .dropped }
  | refused (error : String) (hfailed : s.failed ≠ none) :
      Touched s t k e { e with reply := .sent (.error error) }
  | acked (x : AckTask) (result : Except String Unit) (hx : x ∈ s.tasks) (hcall : x.call = k)
      (hpc : x.pc = .latched result) : Touched s t k e { e with reply := .sent result }
  | lost (hexited : t.writer = .exited) : Touched s t k e { e with reply := .lost }

theorem Touched.event {s t : State} {k : Nat} {e e' : Emit} (h : Touched s t k e e') :
    e'.event = e.event := by
  cases h <;> rfl

/-- No emit goes back to sending. -/
theorem Touched.sending {s t : State} {k : Nat} {e e' : Emit} (h : Touched s t k e e')
    (hpc : e'.pc = .sending) : e.pc = .sending := by
  cases h <;> first | exact hpc | cases hpc

/-- A call of `emit` that has just begun. -/
def Emit.fresh (event : TraceEvent) : Emit :=
  ⟨event, if event.ephemeral then .returned (.ok ()) else .sending, .pending⟩

/-- The call `k` of `emit` after a step. -/
def EmitAfter (s t : State) (k : Nat) (e' : Emit) : Prop :=
  (k = s.emits.length ∧ ∃ event, e' = .fresh event) ∨
    ∃ e, s.emits[k]? = some e ∧ Touched s t k e e'

theorem emitAfter_same {s t : State} {k : Nat} {e : Emit} (hk : s.emits[k]? = some e) :
    EmitAfter s t k e :=
  Or.inr ⟨e, hk, .same⟩

theorem emitAfter_set {s t : State} {k n : Nat} {e e' x : Emit} (hk : s.emits[k]? = some e)
    (htouched : Touched s t k e e') (hn : (s.setEmit k e').emits[n]? = some x) :
    EmitAfter s t n x := by
  rcases Pool.getElem?_set_cases hk hn with ⟨-, hx⟩ | ⟨rfl, rfl⟩
  · exact emitAfter_same hx
  · exact Or.inr ⟨e, hk, htouched⟩

theorem emitAfter_reply {s t : State} {k n : Nat} {result : Except String Unit} {x : Emit}
    (htouched : ∀ e, Touched s t k e { e with reply := .sent result })
    (hn : (s.reply k result).emits[n]? = some x) : EmitAfter s t n x := by
  simp only [State.reply, List.getElem?_modify] at hn
  obtain ⟨e, he, rfl⟩ := Option.map_eq_some_iff.mp hn
  split
  · next hkn =>
    subst hkn
    exact Or.inr ⟨e, he, htouched e⟩
  · exact emitAfter_same he

theorem emitAfter_of_moves {s t : State} (h : Moves s t) {k : Nat} {e : Emit}
    (hk : t.emits[k]? = some e) :
    EmitAfter s t k e := by
  cases h with
  | emitted event =>
    rcases Pool.getElem?_snoc hk with hk | ⟨hlast, rfl⟩
    · exact emitAfter_same hk
    · exact Or.inl ⟨hlast, event, rfl⟩
  | sent n x hn hpc hopen =>
    exact emitAfter_set hn (.sent hpc (List.mem_append_right _ List.mem_cons_self)) hk
  | closed n x hn hpc hclosed => exact emitAfter_set hn (.closed hclosed) hk
  | answered n x result hn hpc hreply => exact emitAfter_set hn (.answered result hreply) hk
  | unanswered n x hn hpc hreply => exact emitAfter_set hn (.unanswered hreply) hk
  | dropped n x hn hpc => exact emitAfter_set hn .dropped hk
  | refused n error hwriter hfailed =>
    exact emitAfter_reply (fun _ => .refused error (by simp [hfailed])) hk
  | acked i x result hi hpc =>
    exact emitAfter_reply (fun _ => .acked x result (List.mem_of_getElem? hi) rfl hpc) hk
  | exited hwriter =>
    simp only [List.getElem?_mapIdx] at hk
    obtain ⟨x, hx, rfl⟩ := Option.map_eq_some_iff.mp hk
    split
    · exact Or.inr ⟨x, hx, .lost rfl⟩
    · exact emitAfter_same hx
  | _ => exact emitAfter_same hk

/-- No call of `emit` is forgotten. -/
theorem emits_length {s t : State} (h : Moves s t) :
    s.emits.length ≤ t.emits.length := by
  cases h with
  | emitted event => simp [stepEmit]
  | _ => simp [State.setEmit, State.reply, State.setFinish, State.replyFinish, State.setTask,
      State.latch]

/-! ### What stays true -/

/-- The store future of the event of call `k` completed without an error. -/
def Journal.StoredOk (m : Journal) (k : Nat) : Prop :=
  ∃ t ∈ m.tasks, t.call = k ∧ t.pc.result = some (.ok ())

theorem storedOk_set {m : Journal} {i k : Nat} {t : AckTask} {pc : TaskPc}
    (hi : m.tasks[i]? = some t) (hpc : ∀ r, t.pc.result = some r → pc.result = some r)
    (h : m.StoredOk k) :
    ∃ x ∈ m.tasks.set i { t with pc }, x.call = k ∧ x.pc.result = some (.ok ()) := by
  obtain ⟨x, hx, hcall, hr⟩ := h
  obtain ⟨n, hn⟩ := List.mem_iff_getElem?.mp hx
  by_cases hne : i = n
  · subst hne
    obtain rfl : t = x := Option.some.inj (hi.symm.trans hn)
    have hlt : i < m.tasks.length := (List.getElem?_eq_some_iff.mp hi).1
    exact ⟨_, List.mem_of_getElem? (List.getElem?_set_self hlt), hcall, hpc _ hr⟩
  · exact ⟨x, List.mem_of_getElem? ((List.getElem?_set_ne hne).trans hn), hcall, hr⟩

theorem storedOk_step {m m' : Journal} {k : Nat} (h : m.StoredOk k) (hstep : m.Step m') :
    m'.StoredOk k := by
  cases hstep with
  | receive command queue hwriter hqueue =>
    obtain ⟨t, ht, hcall, hr⟩ := h
    exact ⟨t.reap, List.mem_map_of_mem ht, (reap_call t).trans hcall,
      (reap_result t).trans hr⟩
  | store n record hwriter hfailed hseq =>
    obtain ⟨t, ht, hcall, hr⟩ := h
    exact ⟨t, List.mem_append_left _ ht, hcall, hr⟩
  | move i t pc hi hnext => exact storedOk_set hi (fun _ => hnext.result) h
  | latch i t error hi hpc =>
    refine storedOk_set hi ?_ h
    intro r hr
    rw [hpc] at hr
    exact hr
  | _ => exact h

theorem failed_step {m m' : Journal} (h : m.failed ≠ none) (hstep : m.Step m') :
    m'.failed ≠ none := by
  cases hstep with
  | latch i t error hi hpc => simp
  | _ => exact h

theorem exited_step {m m' : Journal} (h : m.writer = .exited) (hstep : m.Step m') :
    m'.writer = .exited := by
  cases hstep with
  | enqueue command hopen => exact h
  | move i t pc hi hnext => exact h
  | latch i t error hi hpc => exact h
  | exit hwriter => rfl
  | receive command queue hwriter hqueue => cases hwriter.symm.trans h
  | refuse k hwriter hfailed => cases hwriter.symm.trans h
  | store k record hwriter hfailed hseq => cases hwriter.symm.trans h
  | leave j hwriter hall => cases hwriter.symm.trans h

/-- What an emit was told stays true of a later journal. -/
structure Journal.Grows (m m' : Journal) : Prop where
  stored : ∀ k, m.StoredOk k → m'.StoredOk k
  failed : m.failed ≠ none → m'.failed ≠ none
  exited : m.writer = .exited → m'.writer = .exited

theorem journal_grows {s t : State} {l : Label} (hs : sink.Reachable s)
    (hstep : step s l = some t) : s.journal.Grows t.journal := by
  rcases journal_step hs hstep with heq | hnext
  · rw [heq]
    exact ⟨fun _ h => h, id, id⟩
  · exact ⟨fun _ h => storedOk_step h hnext, fun h => failed_step h hnext,
      fun h => exited_step h hnext⟩

/-! ### Emits -/

/-- What the reply and the result of the call `k` say. -/
structure Emit.Sound (m : Journal) (k : Nat) (e : Emit) : Prop where
  acked : e.reply = .sent (.ok ()) → m.StoredOk k
  refused : ∀ error, e.reply = .sent (.error error) → m.failed ≠ none
  lost : e.reply = .lost → m.writer = .exited
  ok : e.event.ephemeral = false → e.pc = .returned (.ok ()) → m.StoredOk k
  err : ∀ error, e.pc = .returned (.error error) → m.Shut

theorem Emit.Sound.mono {m m' : Journal} {k : Nat} {e : Emit} (h : e.Sound m k)
    (hgrows : m.Grows m') : e.Sound m' k where
  acked := fun hreply => hgrows.stored k (h.acked hreply)
  refused := fun error hreply => hgrows.failed (h.refused error hreply)
  lost := fun hreply => hgrows.exited (h.lost hreply)
  ok := fun hevent hpc => hgrows.stored k (h.ok hevent hpc)
  err := fun error hpc => (h.err error hpc).imp hgrows.failed hgrows.exited

/-- Every emit is told the truth. -/
theorem emits_sound : ∀ s, sink.Reachable s →
    ∀ k (e : Emit), s.emits[k]? = some e → e.Sound s.journal k := by
  apply LTS.System.invariant_with (J := sink.Reachable)
    (P := fun s : State => ∀ k (e : Emit), s.emits[k]? = some e → e.Sound s.journal k) (fun _ hs => hs)
  · intro k e hk
    cases hk
  · intro s l t hs ht h _ hstep k e hk
    have hgrows := journal_grows hs hstep
    have hold : ∀ x, s.emits[k]? = some x → x.Sound t.journal k :=
      fun x hx => (h k x hx).mono hgrows
    have hmove := moves_of_step hs hstep
    rcases emitAfter_of_moves hmove hk with ⟨-, event, rfl⟩ |
      ⟨x, hx, htouched⟩
    · refine ⟨nofun, nofun, nofun, ?_, ?_⟩
      · intro hevent hpc
        unfold Emit.fresh at hevent hpc
        rw [hevent] at hpc
        cases hpc
      · intro error hpc
        unfold Emit.fresh at hpc
        split at hpc <;> cases hpc
    have hold : x.Sound t.journal k := (h k x hx).mono hgrows
    cases htouched with
    | same => exact hold
    | sent hpc hqueue => exact ⟨hold.acked, hold.refused, hold.lost, nofun, nofun⟩
    | dropped => exact ⟨hold.acked, hold.refused, hold.lost, nofun, nofun⟩
    | closed hclosed =>
      exact ⟨hold.acked, hold.refused, hold.lost, nofun,
        fun _ _ => Or.inr (hgrows.exited hclosed)⟩
    | answered result hreply =>
      refine ⟨hold.acked, hold.refused, hold.lost, ?_, ?_⟩
      · rintro - ⟨⟩
        exact hold.acked hreply
      · rintro error ⟨⟩
        exact Or.inl (hold.refused error hreply)
    | unanswered hreply =>
      exact ⟨hold.acked, hold.refused, hold.lost, nofun, fun _ _ => Or.inr (hold.lost hreply)⟩
    | refused error hfailed =>
      exact ⟨nofun, fun _ _ => hgrows.failed hfailed, nofun, hold.ok, hold.err⟩
    | acked y result hy hcall hpc =>
      refine ⟨?_, ?_, nofun, hold.ok, hold.err⟩
      · rintro ⟨⟩
        exact hgrows.stored k ⟨y, hy, hcall, by rw [hpc]; rfl⟩
      · rintro error ⟨⟩
        exact hgrows.failed
          ((blamed_journal s hs).reported y hy error (by rw [hpc]; rfl))
    | lost hexited => exact ⟨nofun, nofun, fun _ => hexited, hold.ok, hold.err⟩

/-- Every call of `emit` goes on after a step. -/
theorem emit_kept {s t : State} {l : Label} (hs : sink.Reachable s) (hstep : step s l = some t)
    {k : Nat} {e : Emit} (hk : s.emits[k]? = some e) :
    ∃ e', t.emits[k]? = some e' ∧ Touched s t k e e' := by
  have hmove := moves_of_step hs hstep
  have hlt : k < s.emits.length := (List.getElem?_eq_some_iff.mp hk).1
  have hlt' := Nat.lt_of_lt_of_le hlt (emits_length hmove)
  refine ⟨_, List.getElem?_eq_getElem hlt', ?_⟩
  rcases emitAfter_of_moves hmove (List.getElem?_eq_getElem hlt') with
    ⟨hlast, -⟩ | ⟨x, hx, htouched⟩
  · omega
  · obtain rfl := Option.some.inj (hk.symm.trans hx)
    exact htouched

end Kyora.Sink
