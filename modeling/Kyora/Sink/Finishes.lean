import Kyora.Sink.Emits

/-! # What a call of `finish` is told

  Only the first call of `finish` sends a command, and it is the last command
  the writer receives. Its reply is sent when every acknowledgement is joined,
  after which the latched failure no longer changes.
-/

namespace Kyora.Sink

open Trace (TraceEvent TraceRecord)

/-! ### How one step changes a call -/

/-- What the writer tells a finish. -/
def Journal.outcome (m : Journal) : Except String Unit :=
  match m.failed with
  | some error => .error error
  | none => .ok ()

/-- What a step from `s` to `t` makes of the call `j` of `finish`. -/
inductive Goes (s t : State) (j : Nat) (f : Finish) : Finish → Prop where
  | same : Goes s t j f f
  | locked (hpc : f.pc = .locking) (htaken : t.taken = some j) :
      Goes s t j f { f with pc := .sending }
  | passed (hpc : f.pc = .locking) (htaken : t.taken = s.taken) :
      Goes s t j f { f with pc := .returned (.ok ()) }
  | sent (hpc : f.pc = .sending) (hqueue : .finish j ∈ t.queue) :
      Goes s t j f { f with pc := .awaiting }
  | closed (hpc : f.pc = .sending) (hclosed : s.writer = .exited) :
      Goes s t j f { f with pc := .returned (.error "channel closed") }
  | answered (result : Except String Unit) (hpc : f.pc = .awaiting)
      (hreply : f.reply = .sent result) : Goes s t j f { f with pc := .joining result }
  | unanswered (hpc : f.pc = .awaiting) (hreply : f.reply = .lost) :
      Goes s t j f { f with pc := .returned (.error "channel closed") }
  | joined (result : Except String Unit) (hpc : f.pc = .joining result)
      (hexited : s.writer = .exited) : Goes s t j f { f with pc := .returned result }
  | dropped : Goes s t j f { f with pc := .dropped }
  | replied (hwriter : s.writer = .finishing j) (hleaving : t.writer = .leaving)
      (hfailed : t.failed = s.failed) :
      Goes s t j f { f with reply := .sent s.journal.outcome }
  | lost (hwriter : s.writer = .leaving) (hqueue : .finish j ∈ s.queue) :
      Goes s t j f { f with reply := .lost }

/-- The call `j` of `finish` after a step. -/
def FinishAfter (s t : State) (j : Nat) (f' : Finish) : Prop :=
  (j = s.finishes.length ∧ f' = ⟨.locking, .pending⟩) ∨
    ∃ f, s.finishes[j]? = some f ∧ Goes s t j f f'

theorem finishAfter_same {s t : State} {j : Nat} {f : Finish} (hj : s.finishes[j]? = some f) :
    FinishAfter s t j f :=
  Or.inr ⟨f, hj, .same⟩

theorem finishAfter_set {s t : State} {j n : Nat} {f f' x : Finish}
    (hj : s.finishes[j]? = some f) (hgoes : Goes s t j f f')
    (hn : (s.setFinish j f').finishes[n]? = some x) : FinishAfter s t n x := by
  rcases Pool.getElem?_set_cases hj hn with ⟨-, hx⟩ | ⟨rfl, rfl⟩
  · exact finishAfter_same hx
  · exact Or.inr ⟨f, hj, hgoes⟩

theorem finishAfter_of_moves {s t : State} (h : Moves s t) {j : Nat} {f : Finish}
    (hj : t.finishes[j]? = some f) :
    FinishAfter s t j f := by
  cases h with
  | finish =>
    rcases Pool.getElem?_snoc hj with hj | ⟨hlast, rfl⟩
    · exact finishAfter_same hj
    · exact Or.inl ⟨hlast, rfl⟩
  | locked n x hn hpc hholder htaken => exact finishAfter_set hn (.locked hpc rfl) hj
  | passed n x hn hpc hholder htaken => exact finishAfter_set hn (.passed hpc rfl) hj
  | finishSent n x hn hpc hopen =>
    exact finishAfter_set hn (.sent hpc (List.mem_append_right _ List.mem_cons_self)) hj
  | finishClosed n x hn hpc hclosed => exact finishAfter_set hn (.closed hpc hclosed) hj
  | finishAnswered n x result hn hpc hreply =>
    exact finishAfter_set hn (.answered result hpc hreply) hj
  | finishUnanswered n x hn hpc hreply =>
    exact finishAfter_set hn (.unanswered hpc hreply) hj
  | finishJoined n x result hn hpc hexited =>
    exact finishAfter_set hn (.joined result hpc hexited) hj
  | finishDropped n x holder hn hholder => exact finishAfter_set hn .dropped hj
  | replied n result hwriter hall hresult =>
    simp only [State.replyFinish, List.getElem?_modify] at hj
    obtain ⟨x, hx, rfl⟩ := Option.map_eq_some_iff.mp hj
    split
    · next hnj =>
      subst hnj hresult
      exact Or.inr ⟨x, hx, .replied hwriter rfl rfl⟩
    · exact finishAfter_same hx
  | exited hwriter =>
    simp only [List.getElem?_mapIdx] at hj
    obtain ⟨x, hx, rfl⟩ := Option.map_eq_some_iff.mp hj
    split
    · next hqueue => exact Or.inr ⟨x, hx, .lost hwriter hqueue⟩
    · exact finishAfter_same hx
  | _ => exact finishAfter_same hj

/-- No call of `finish` is forgotten. -/
theorem finishes_length {s t : State} (h : Moves s t) :
    s.finishes.length ≤ t.finishes.length := by
  cases h with
  | finish => simp
  | _ => simp [stepEmit, State.setEmit, State.reply, State.setFinish, State.replyFinish,
      State.setTask, State.latch]

/-- Every call of `finish` goes on after a step. -/
theorem finish_kept {s t : State} {l : Label} (hs : sink.Reachable s)
    (hstep : step s l = some t) {j : Nat} {f : Finish} (hj : s.finishes[j]? = some f) :
    ∃ f', t.finishes[j]? = some f' ∧ Goes s t j f f' := by
  have hmove := moves_of_step hs hstep
  have hlt : j < s.finishes.length := (List.getElem?_eq_some_iff.mp hj).1
  have hlt' := Nat.lt_of_lt_of_le hlt (finishes_length hmove)
  refine ⟨_, List.getElem?_eq_getElem hlt', ?_⟩
  rcases finishAfter_of_moves hmove (List.getElem?_eq_getElem hlt') with
    ⟨hlast, -⟩ | ⟨x, hx, hgoes⟩
  · omega
  · obtain rfl := Option.some.inj (hj.symm.trans hx)
    exact hgoes

/-- The join handle is taken once. -/
theorem taken_kept {s t : State} {l : Label} (hs : sink.Reachable s)
    (hstep : step s l = some t) {j : Nat} (hj : s.taken = some j) : t.taken = some j := by
  cases moves_of_step hs hstep with
  | locked n f hn hpc hholder htaken => cases hj.symm.trans htaken
  | _ => exact hj

/-! ### The line -/

/-- The commands sent so far, received ones first. -/
def State.line (s : State) : List WriteCommand := s.received ++ s.queue

/-- The call of a command has sent it. -/
def State.HasSent (s : State) : WriteCommand → Prop
  | .event k => ∃ e, s.emits[k]? = some e ∧ e.pc ≠ .sending ∧ e.event.ephemeral = false
  | .finish j => s.taken = some j ∧
      ∃ f, s.finishes[j]? = some f ∧ f.pc ≠ .locking ∧ f.pc ≠ .sending

/-- Every command stands once in the line, and its call has sent it. -/
structure Lined (s : State) : Prop where
  nodup : s.line.Nodup
  sent : ∀ command ∈ s.line, s.HasSent command
  /-- Only persistent events are sent. -/
  persistent : ∀ (k : Nat) (e : Emit), s.emits[k]? = some e → e.pc = .sending →
    e.event.ephemeral = false
  /-- Only the call that took the join handle sends a finish. -/
  taker : ∀ (j : Nat) (f : Finish), s.finishes[j]? = some f → f.pc = .sending →
    s.taken = some j
  taken : ∀ j, s.taken = some j → ∃ f, s.finishes[j]? = some f ∧ f.pc ≠ .locking

/-- What a step appends to the line, or that the writer drops the rest of it. -/
inductive LineStep (s t : State) : Prop where
  | same (hline : t.line = s.line)
  | event (k : Nat) (e : Emit) (hk : s.emits[k]? = some e) (hpc : e.pc = .sending)
      (hk' : t.emits[k]? = some { e with pc := .awaiting })
      (hline : t.line = s.line ++ [.event k])
  | finish (j : Nat) (f : Finish) (hj : s.finishes[j]? = some f) (hpc : f.pc = .sending)
      (hj' : t.finishes[j]? = some { f with pc := .awaiting })
      (hline : t.line = s.line ++ [.finish j])
  | cut (hline : t.line = s.received)

theorem lineStep_of_moves {s t : State} (h : Moves s t) : LineStep s t := by
  cases h with
  | sent k e hk hpc hopen =>
    have hlt : k < s.emits.length := (List.getElem?_eq_some_iff.mp hk).1
    refine .event k e hk hpc (List.getElem?_set_self hlt) ?_
    simp only [State.line, State.setEmit, List.append_assoc]
  | finishSent j f hj hpc hopen =>
    have hlt : j < s.finishes.length := (List.getElem?_eq_some_iff.mp hj).1
    refine .finish j f hj hpc (List.getElem?_set_self hlt) ?_
    simp only [State.line, State.setFinish, List.append_assoc]
  | received command queue hwriter hqueue =>
    apply LineStep.same
    simp only [State.line, hqueue, List.append_assoc, List.singleton_append]
  | exited hwriter => exact .cut (List.append_nil s.received)
  | _ => exact .same rfl

theorem Goes.sent_kept {s t : State} {j : Nat} {f f' : Finish} (h : Goes s t j f f')
    (hpc : f.pc ≠ .locking ∧ f.pc ≠ .sending) : f'.pc ≠ .locking ∧ f'.pc ≠ .sending := by
  cases h with
  | locked hlocking htaken => exact absurd hlocking hpc.1
  | same => exact hpc
  | replied hwriter hleaving hfailed => exact hpc
  | lost hwriter hqueue => exact hpc
  | _ => exact ⟨nofun, nofun⟩

theorem hasSent_kept {s t : State} {l : Label} (hs : sink.Reachable s)
    (hstep : step s l = some t) {command : WriteCommand} (h : s.HasSent command) :
    t.HasSent command := by
  cases command with
  | event k =>
    obtain ⟨e, hk, hpc, hevent⟩ := h
    obtain ⟨e', hk', htouched⟩ := emit_kept hs hstep hk
    exact ⟨e', hk', fun h => hpc (htouched.sending h), by rw [htouched.event, hevent]⟩
  | finish j =>
    obtain ⟨htaken, f, hj, hpc⟩ := h
    obtain ⟨f', hj', hgoes⟩ := finish_kept hs hstep hj
    exact ⟨taken_kept hs hstep htaken, f', hj', hgoes.sent_kept hpc⟩

theorem lined_step {s t : State} {l : Label} (hs : sink.Reachable s) (h : Lined s)
    (hstep : step s l = some t) : Lined t := by
  have hmove := moves_of_step hs hstep
  have hsent : ∀ command ∈ s.line, t.HasSent command :=
    fun command hc => hasSent_kept hs hstep (h.sent command hc)
  have hline : t.line.Nodup ∧ ∀ command ∈ t.line, t.HasSent command := by
    cases lineStep_of_moves hmove with
    | same hline =>
      rw [hline]
      exact ⟨h.nodup, hsent⟩
    | cut hline =>
      rw [hline]
      exact ⟨(List.nodup_append.mp h.nodup).1,
        fun command hc => hsent command (List.mem_append_left _ hc)⟩
    | event k e hk hpc hk' hline =>
      have hnew : .event k ∉ s.line := by
        intro hmem
        obtain ⟨x, hx, hne, -⟩ := h.sent _ hmem
        obtain rfl := Option.some.inj (hk.symm.trans hx)
        exact hne hpc
      rw [hline, ← List.concat_eq_append]
      refine ⟨h.nodup.concat hnew, fun command hc => ?_⟩
      rw [List.concat_eq_append] at hc
      rcases List.mem_append.mp hc with hc | hc
      · exact hsent command hc
      · rw [List.mem_singleton.mp hc]
        exact ⟨_, hk', nofun, h.persistent k e hk hpc⟩
    | finish j f hj hpc hj' hline =>
      have hnew : .finish j ∉ s.line := by
        intro hmem
        obtain ⟨-, x, hx, -, hne⟩ := h.sent _ hmem
        obtain rfl := Option.some.inj (hj.symm.trans hx)
        exact hne hpc
      rw [hline, ← List.concat_eq_append]
      refine ⟨h.nodup.concat hnew, fun command hc => ?_⟩
      rw [List.concat_eq_append] at hc
      rcases List.mem_append.mp hc with hc | hc
      · exact hsent command hc
      · rw [List.mem_singleton.mp hc]
        exact ⟨taken_kept hs hstep (h.taker j f hj hpc), _, hj', nofun, nofun⟩
  refine ⟨hline.1, hline.2, ?_, ?_, ?_⟩
  · intro k e hk hpc
    rcases emitAfter_of_moves hmove hk with ⟨-, event, rfl⟩ | ⟨x, hx, htouched⟩
    · unfold Emit.fresh at hpc ⊢
      split at hpc
      · cases hpc
      · next hevent => simpa using hevent
    · rw [htouched.event]
      exact h.persistent k x hx (htouched.sending hpc)
  · intro j f hj hpc
    rcases finishAfter_of_moves hmove hj with ⟨-, rfl⟩ | ⟨x, hx, hgoes⟩
    · cases hpc
    · cases hgoes with
      | same => exact taken_kept hs hstep (h.taker j f hx hpc)
      | locked hlocking htaken => exact htaken
      | replied hwriter hleaving hfailed => exact taken_kept hs hstep (h.taker j x hx hpc)
      | lost hwriter hqueue => exact taken_kept hs hstep (h.taker j x hx hpc)
      | _ => cases hpc
  · intro j hj
    have hold : s.taken = some j → ∃ f, t.finishes[j]? = some f ∧ f.pc ≠ .locking := by
      intro htaken
      obtain ⟨f, hf, hpc⟩ := h.taken j htaken
      obtain ⟨f', hf', hgoes⟩ := finish_kept hs hstep hf
      refine ⟨f', hf', ?_⟩
      cases hgoes with
      | same => exact hpc
      | replied hwriter hleaving hfailed => exact hpc
      | lost hwriter hqueue => exact hpc
      | _ => nofun
    cases hmove with
    | locked n f hn hpc hholder htaken =>
      obtain rfl := Option.some.inj hj
      have hlt : n < s.finishes.length := (List.getElem?_eq_some_iff.mp hn).1
      exact ⟨_, List.getElem?_set_self hlt, nofun⟩
    | _ => exact hold hj

theorem lined : ∀ s, sink.Reachable s → Lined s := by
  apply LTS.System.invariant_with (J := sink.Reachable) (P := Lined) (fun _ hs => hs)
  · refine ⟨List.nodup_nil, fun _ hc => absurd hc List.not_mem_nil, ?_, ?_, ?_⟩
    · intro k e hk
      cases hk
    · intro j f hj
      cases hj
    · intro j hj
      cases hj
  · intro s l t hs _ h _ hstep
    exact lined_step hs h hstep

/-! ### Replies -/

/-- The finish the writer received last is the one that took the join handle. -/
theorem received_finish {s : State} (hs : sink.Reachable s)
    (hover : s.writer = .leaving ∨ s.writer = .exited) :
    ∃ j, ∃ ks : List Nat, s.taken = some j ∧ s.received = ks.map .event ++ [.finish j] := by
  have hfollows := (closing_journal s hs).follows
  have hlast : ∃ j, ∃ ks : List Nat, s.received = ks.map .event ++ [.finish j] := by
    rcases hover with hwriter | hwriter
    · rw [show s.journal.writer = .leaving from hwriter] at hfollows
      exact hfollows
    · rw [show s.journal.writer = .exited from hwriter] at hfollows
      exact hfollows
  obtain ⟨j, ks, hreceived⟩ := hlast
  have hmem : .finish j ∈ s.line := by
    apply List.mem_append_left
    rw [hreceived]
    exact List.mem_append_right _ List.mem_cons_self
  exact ⟨j, ks, ((lined s hs).sent _ hmem).1, hreceived⟩

/-- Once the writer has left, the failure stays what it is. -/
theorem over_step {m m' : Journal} (h : Closing m)
    (hover : m.writer = .leaving ∨ m.writer = .exited) (hstep : m.Step m') :
    (m'.writer = .leaving ∨ m'.writer = .exited) ∧ m'.outcome = m.outcome := by
  have hreaped := h.reaped hover
  cases hstep with
  | enqueue command hopen => exact ⟨hover, rfl⟩
  | receive command queue hwriter hqueue => simp [hwriter] at hover
  | refuse k hwriter hfailed => simp [hwriter] at hover
  | store k record hwriter hfailed hseq => simp [hwriter] at hover
  | leave j hwriter hall => simp [hwriter] at hover
  | move i t pc hi hnext => exact ⟨hover, rfl⟩
  | latch i t error hi hpc =>
    have hdone := hreaped t (List.mem_of_getElem? hi)
    rw [hpc] at hdone
    cases hdone
  | exit hwriter => exact ⟨Or.inr rfl, rfl⟩

/-- What the reply and the result of the call `j` say. -/
structure Finish.Sound (s : State) (j : Nat) (f : Finish) : Prop where
  reply : ∀ result, f.reply = .sent result →
    (s.writer = .leaving ∨ s.writer = .exited) ∧ result = s.journal.outcome
  answered : f.reply ≠ .lost
  joining : ∀ result, f.pc = .joining result →
    (s.writer = .leaving ∨ s.writer = .exited) ∧ result = s.journal.outcome
  returned : ∀ result, s.taken = some j → f.pc = .returned result →
    s.writer = .exited ∧ result = s.journal.outcome

theorem over_kept {s t : State} {l : Label} (hs : sink.Reachable s)
    (hstep : step s l = some t) {result : Except String Unit}
    (h : (s.writer = .leaving ∨ s.writer = .exited) ∧ result = s.journal.outcome) :
    (t.writer = .leaving ∨ t.writer = .exited) ∧ result = t.journal.outcome := by
  rcases journal_step hs hstep with heq | hnext
  · have hwriter : t.writer = s.writer := congrArg Journal.writer heq
    rw [hwriter, heq]
    exact h
  · obtain ⟨hover, houtcome⟩ := over_step (closing_journal s hs) h.1 hnext
    exact ⟨hover, h.2.trans houtcome.symm⟩

theorem finish_sound_step {s t : State} {l : Label} (hs : sink.Reachable s)
    (h : ∀ (j : Nat) (f : Finish), s.finishes[j]? = some f → f.Sound s j)
    (hstep : step s l = some t) (j : Nat) (f : Finish) (hj : t.finishes[j]? = some f) :
    f.Sound t j := by
  have hline := lined s hs
  have hexited : s.writer = .exited → t.writer = .exited := (journal_grows hs hstep).exited
  rcases finishAfter_of_moves (moves_of_step hs hstep) hj with ⟨-, rfl⟩ | ⟨x, hx, hgoes⟩
  · exact ⟨nofun, nofun, nofun, nofun⟩
  have hold := h j x hx
  have hreply : ∀ result, x.reply = .sent result →
      (t.writer = .leaving ∨ t.writer = .exited) ∧ result = t.journal.outcome :=
    fun result hr => over_kept hs hstep (hold.reply result hr)
  have hjoining : ∀ result, x.pc = .joining result →
      (t.writer = .leaving ∨ t.writer = .exited) ∧ result = t.journal.outcome :=
    fun result hpc => over_kept hs hstep (hold.joining result hpc)
  -- A call that has returned had taken the handle before the step, if at all.
  have hreturned : ∀ result, t.taken = some j → x.pc = .returned result →
      t.writer = .exited ∧ result = t.journal.outcome := by
    intro result htaken hpc
    have htaken' : s.taken = some j := by
      cases hmove : moves_of_step hs hstep with
      | locked n f' hn hlocking hholder hnone =>
        obtain rfl := Option.some.inj htaken
        obtain rfl := Option.some.inj (hn.symm.trans hx)
        cases hlocking.symm.trans hpc
      | _ => exact htaken
    obtain ⟨hwriter, houtcome⟩ := hold.returned result htaken' hpc
    exact ⟨hexited hwriter, (over_kept hs hstep ⟨Or.inr hwriter, houtcome⟩).2⟩
  cases hgoes with
  | same => exact ⟨hreply, hold.answered, hjoining, hreturned⟩
  | locked hpc htaken => exact ⟨hreply, hold.answered, nofun, nofun⟩
  | sent hpc hqueue => exact ⟨hreply, hold.answered, nofun, nofun⟩
  | dropped => exact ⟨hreply, hold.answered, nofun, nofun⟩
  | passed hpc htaken =>
    refine ⟨hreply, hold.answered, nofun, ?_⟩
    intro result hj' _
    obtain ⟨y, hy, hne⟩ := hline.taken j (htaken ▸ hj')
    obtain rfl := Option.some.inj (hx.symm.trans hy)
    exact absurd hpc hne
  | closed hpc hclosed =>
    -- The writer exits only after the command of this very call.
    obtain ⟨n, ks, htaken, hreceived⟩ := received_finish hs (Or.inr hclosed)
    obtain rfl : n = j := Option.some.inj (htaken.symm.trans (hline.taker j x hx hpc))
    have hmem : .finish n ∈ s.line := by
      apply List.mem_append_left
      rw [hreceived]
      exact List.mem_append_right _ List.mem_cons_self
    obtain ⟨-, y, hy, -, hne⟩ := hline.sent _ hmem
    obtain rfl := Option.some.inj (hx.symm.trans hy)
    exact absurd hpc hne
  | unanswered hpc hlost => exact absurd hlost hold.answered
  | answered result hpc hsent =>
    refine ⟨hreply, hold.answered, ?_, nofun⟩
    rintro _ ⟨⟩
    exact hreply result hsent
  | joined result hpc hwriter =>
    refine ⟨hreply, hold.answered, nofun, ?_⟩
    rintro _ - ⟨⟩
    exact ⟨hexited hwriter, (hjoining result hpc).2⟩
  | replied hwriter hleaving hfailed =>
    refine ⟨?_, nofun, hjoining, hreturned⟩
    rintro _ ⟨⟩
    refine ⟨Or.inl hleaving, ?_⟩
    simp only [Journal.outcome, State.journal, hfailed]
  | lost hwriter hqueue =>
    -- The command received last is the only finish in the line.
    obtain ⟨n, ks, htaken, hreceived⟩ := received_finish hs (Or.inl hwriter)
    have hj' := (hline.sent (.finish j) (List.mem_append_right _ hqueue)).1
    obtain rfl : n = j := Option.some.inj (htaken.symm.trans hj')
    have hmem : .finish n ∈ s.received := by
      rw [hreceived]
      exact List.mem_append_right _ List.mem_cons_self
    exact absurd rfl ((List.nodup_append.mp hline.nodup).2.2 _ hmem _ hqueue)

theorem finishes_sound : ∀ s, sink.Reachable s →
    ∀ (j : Nat) (f : Finish), s.finishes[j]? = some f → f.Sound s j := by
  apply LTS.System.invariant_with (J := sink.Reachable)
    (P := fun s : State => ∀ (j : Nat) (f : Finish), s.finishes[j]? = some f → f.Sound s j)
    (fun _ hs => hs)
  · intro j f hj
    cases hj
  · intro s l t hs _ h _ hstep
    exact finish_sound_step hs h hstep

end Kyora.Sink
