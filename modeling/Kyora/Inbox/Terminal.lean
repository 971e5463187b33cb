import Kyora.Inbox.Steps

/-! # One terminal entry per agent

  The part of an inbox that concerns terminal entries, the `Notes`: which
  agents have had one pushed, queued or staged, and the sets `awaiting`,
  `concluded` and `seen`. Expecting, staging and pushing keep these in step,
  so no agent is reported twice and none is forgotten.
-/

namespace Kyora.Inbox

/-! ### The notes of an inbox -/

/-- Senders of the terminal entries in a list. -/
def terminalSenders (xs : List Envelope) : List NodeId :=
  (xs.filter fun e => !e.plain).map Envelope.from_

theorem mem_terminalSenders {xs : List Envelope} {c : NodeId} :
    c ∈ terminalSenders xs ↔ ∃ e ∈ xs, e.plain = false ∧ e.from_ = c := by
  simp [terminalSenders, and_assoc]

theorem terminalSenders_append (xs ys : List Envelope) :
    terminalSenders (xs ++ ys) = terminalSenders xs ++ terminalSenders ys := by
  simp [terminalSenders]

theorem terminalSenders_plain {e : Envelope} (h : e.plain = true) :
    terminalSenders [e] = [] := by
  simp [terminalSenders, h]

theorem terminalSenders_terminal {e : Envelope} (h : e.plain = false) :
    terminalSenders [e] = [e.from_] := by
  simp [terminalSenders, h]

/-- Who has a terminal entry where. -/
structure Notes where
  /-- Senders of the terminal entries given to `push`, oldest first. -/
  posted : List NodeId
  queued : List NodeId
  /-- Agents whose staged entry is still being recorded. -/
  recording : List NodeId
  kids : NodeId → Option Kid
  awaiting : Finset NodeId
  concluded : Finset NodeId
  seen : Finset NodeId
  closed : Bool

def State.notes (s : State) : Notes where
  posted := terminalSenders s.pushed
  queued := terminalSenders s.box.queue
  recording := s.staged.map Envelope.from_
  kids := s.kids
  awaiting := s.box.awaiting
  concluded := s.box.concluded
  seen := s.box.seen
  closed := s.box.closed

/-- A phase in which the notice of a node-owned child is expected. -/
def Phase.awaited : Phase → Bool
  | .running | .joining | .published _ => true
  | _ => false

/-- A terminal entry of `c` arrives. -/
def Notes.arrive (n : Notes) (c : NodeId) : Notes :=
  { n with
    posted := n.posted ++ [c]
    queued := if n.closed then n.queued else n.queued ++ [c]
    awaiting := n.awaiting.erase c
    concluded := insert c n.concluded }

/-- The ways a step changes the notes. -/
inductive Notes.Step (n : Notes) : Notes → Prop where
  | stay : Step n n
  | register (c : NodeId) (kin : Kin) (hnew : n.kids c = none) :
      Step n { n with
        kids := Function.update n.kids c
          (some ⟨kin, if kin = .node then .registered else .running⟩) }
  | expect (c : NodeId) (hkid : n.kids c = some ⟨.node, .registered⟩) :
      Step n { n with
        kids := Function.update n.kids c (some ⟨.node, .running⟩)
        awaiting := insert c n.awaiting }
  | advance (c : NodeId) (kin : Kin) (p p' : Phase) (hkid : n.kids c = some ⟨kin, p⟩)
      (hp : p.awaited = true) (hp' : p'.awaited = true) :
      Step n { n with kids := Function.update n.kids c (some ⟨kin, p'⟩) }
  | notify (c : NodeId) (o : Outcome) (hkid : n.kids c = some ⟨.node, .published o⟩) :
      Step n { n.arrive c with
        kids := Function.update n.kids c (some ⟨.node, .ended o⟩) }
  | stage (c : NodeId) (k : Kid) (hkid : n.kids c = some k) (hout : k.phase.outcome ≠ none)
      (hopen : n.closed = false) (hawait : c ∉ n.awaiting) (hnew : c ∉ n.concluded) :
      Step n { n with
        concluded := insert c n.concluded
        awaiting := insert c n.awaiting
        recording := n.recording ++ [c] }
  | conclude (c : NodeId) (rest : List NodeId) (hperm : n.recording.Perm (c :: rest)) :
      Step n { n.arrive c with recording := rest }
  | take (out : Finset NodeId) (rest : List NodeId)
      (hqueued : ∀ c ∈ n.queued, c ∈ out ∨ c ∈ rest) :
      Step n { n with queued := rest, seen := n.seen ∪ out }
  | shut (shut : Bool) : Step n { n with closed := n.closed || shut }
  | close : Step n { n with closed := true, queued := [] }
  | saw (c : NodeId) : Step n { n with seen := insert c n.seen }

/-! ### Steps of the inbox -/

/-- A plain push does not show in the notes. -/
theorem notes_post_plain {s t : State} {e : Envelope} (he : e.plain = true)
    (h : s.post e = some t) : t.notes = s.notes := by
  obtain ⟨-, ⟨-, rfl⟩ | ⟨-, rfl⟩⟩ := post_plain he h
  · simp only [State.notes, State.willWake, terminalSenders_append,
      terminalSenders_plain he, List.append_nil]
  · simp only [State.notes, State.willWake, terminalSenders_append,
      terminalSenders_plain he, List.append_nil]

theorem notes_post_terminal {s t : State} {e : Envelope} (he : e.plain = false)
    (h : s.post e = some t) : t.notes = s.notes.arrive e.from_ := by
  rw [post_terminal he, Option.some.injEq] at h
  subst h
  simp only [State.notes, State.willWake, Notes.arrive, terminalSenders_append,
    terminalSenders_terminal he]
  rw [apply_ite terminalSenders, terminalSenders_append, terminalSenders_terminal he]
  rfl

theorem notes_take {cfg : Config} {s : State} {pick : Envelope → Bool} {box : Mailbox.State}
    {b : Mailbox.Batch}
    (h : Mailbox.take s.box cfg.limits.deliveryChars pick (Envelope.size cfg.names) =
      some (box, b)) : s.notes.Step (s.handOver cfg box b).notes := by
  obtain ⟨-, rfl, rfl⟩ := Mailbox.take_eq_some.mp h
  refine .take (Mailbox.terminals _) _ fun c hc => ?_
  obtain ⟨e, he, hterm, hfrom⟩ := mem_terminalSenders.mp hc
  have hperm := Mailbox.queue_perm s.box cfg.limits.deliveryChars pick (Envelope.size cfg.names)
  rcases List.mem_append.mp (hperm.mem_iff.mp he) with he | he
  · exact Or.inl (Mailbox.mem_terminals.mpr ⟨e, he, hterm, hfrom⟩)
  · exact Or.inr (mem_terminalSenders.mpr ⟨e, he, hterm, hfrom⟩)

/-- Every step of the inbox changes the notes in one of these ways. -/
theorem notes_step {cfg : Config} {s t : State} {l : Label} (hk : Kinds s)
    (h : step cfg s l = some t) : s.notes.Step t.notes := by
  cases fires_of_step h with
  | deliver e hmem hpost =>
    have hnotes := notes_post_plain (hk.sending e hmem) hpost
    rw [hnotes]
    exact .stay
  | register c kin hnew => exact .register c kin hnew
  | expect c hkid => exact .expect c hkid
  | join c kin hkid => exact .advance c kin _ _ hkid rfl rfl
  | publish o kin hkid hjoined hkin => exact .advance o.node kin _ _ hkid rfl rfl
  | publishCell o hkid hjoined => exact .advance o.node .cell _ _ hkid rfl rfl
  | notify c id o hkid hpost =>
    have hnode : o.node = c := hk.outcome (by simp [State.outcome, hkid, Phase.outcome])
    have hnotes := notes_post_terminal (notice_plain cfg id o) hpost
    have hstep := @Notes.Step.notify s.notes c o hkid
    rw [hnotes]
    show s.notes.Step (Notes.arrive _ o.node)
    rw [hnode]
    exact hstep
  | staged o id hout hopen hawait hnew =>
    obtain ⟨k, hkid, hphase⟩ := State.outcome_eq_some.mp hout
    have hstep := @Notes.Step.stage s.notes o.node k hkid (by rw [hphase]; simp) hopen hawait hnew
    simpa [State.notes, notice] using hstep
  | conclude e hmem hpost =>
    have hnotes := notes_post_terminal (hk.staged e hmem) hpost
    rw [hnotes]
    exact .conclude e.from_ _ ((List.perm_cons_erase hmem).map Envelope.from_)
  | take pick htake => exact notes_take htake
  | idleDeliver shut hqueue htake => exact notes_take htake
  | idleDone shut hqueue hawait hres => exact .shut shut
  | close => exact .close
  | charged o hfit =>
    -- Unfolded first, so that the sizes are not compared.
    simpa only [State.notes] using @Notes.Step.stay s.notes
  | saw c => exact .saw c
  | _ => exact .stay

/-! ### The invariants -/

/-- The sets agree with what happened: every agent concludes once, and is
    awaited exactly until then. -/
structure Notes.Sound (n : Notes) : Prop where
  nodup : (n.posted ++ n.recording).Nodup
  concluded : ∀ c, c ∈ n.concluded ↔ c ∈ n.posted ++ n.recording
  awaiting : ∀ c, c ∈ n.awaiting ↔
    (∃ p, n.kids c = some ⟨.node, p⟩ ∧ p.awaited = true) ∨ c ∈ n.recording
  /-- A node-owned child is concluded by its own notice. -/
  node : ∀ c p, n.kids c = some ⟨.node, p⟩ →
    c ∉ n.recording ∧ (c ∈ n.posted ↔ ∃ o, p = .ended o)
  known : ∀ c ∈ n.posted ++ n.recording, n.kids c ≠ none
  /-- What was pushed is queued, or was handed over, or the mailbox closed. -/
  arrived : ∀ c ∈ n.posted, c ∈ n.queued ∨ c ∈ n.seen ∨ n.closed = true

/-- Looking up an agent after its phase changed. -/
theorem kid_update {kids : NodeId → Option Kid} {c d : NodeId} {k k' : Kid}
    (h : Function.update kids c (some k) d = some k') :
    (d = c ∧ k' = k) ∨ (d ≠ c ∧ kids d = some k') := by
  by_cases hd : d = c
  · subst hd
    rw [Function.update_self] at h
    exact Or.inl ⟨rfl, (Option.some.inj h).symm⟩
  · rw [Function.update_of_ne hd] at h
    exact Or.inr ⟨hd, h⟩

theorem kid_update_ne_none {kids : NodeId → Option Kid} {c d : NodeId} {k : Kid}
    (h : kids d ≠ none) : Function.update kids c (some k) d ≠ none := by
  by_cases hd : d = c
  · subst hd
    simp
  · rwa [Function.update_of_ne hd]

/-- A change of phase that keeps whether the notice is expected. -/
theorem Notes.Sound.setKid {n : Notes} (h : n.Sound) {c : NodeId} {k : Kid}
    (hnode : ∀ p, k = ⟨.node, p⟩ →
      c ∉ n.recording ∧ (c ∈ n.posted ↔ ∃ o, p = .ended o))
    (hawait : (∃ p, n.kids c = some ⟨.node, p⟩ ∧ p.awaited = true) ↔
      ∃ p, k = ⟨.node, p⟩ ∧ p.awaited = true) :
    Notes.Sound { n with kids := Function.update n.kids c (some k) } := by
  refine ⟨h.nodup, h.concluded, fun d => ?_, fun d p hd => ?_,
    fun d hd => kid_update_ne_none (h.known d hd), h.arrived⟩
  · show d ∈ n.awaiting ↔ _
    rw [h.awaiting]
    by_cases hdc : d = c
    · subst hdc
      simp only [Function.update_self, Option.some.injEq, hawait]
    · simp only [Function.update_of_ne hdc]
  · rcases kid_update hd with ⟨rfl, rfl⟩ | ⟨-, hd⟩
    · exact hnode p rfl
    · exact h.node d p hd

/-- An entry that arrives is queued, unless the mailbox is closed. -/
theorem Notes.Sound.arrive {n : Notes} {c : NodeId} (h : n.Sound) :
    (∀ d, d ∈ (n.arrive c).posted → d ∈ (n.arrive c).queued ∨ d ∈ (n.arrive c).seen ∨
      (n.arrive c).closed = true) := by
  intro d hd
  show d ∈ (if n.closed then n.queued else n.queued ++ [c]) ∨ d ∈ n.seen ∨ n.closed = true
  cases hclosed : n.closed
  · rcases List.mem_append.mp hd with hd | hd
    · rcases h.arrived d hd with hq | hs | hc
      · exact Or.inl (List.mem_append_left _ hq)
      · exact Or.inr (Or.inl hs)
      · rw [hclosed] at hc
        cases hc
    · exact Or.inl (List.mem_append_right _ hd)
  · exact Or.inr (Or.inr rfl)

/-- Staging only succeeds for an agent that posts no notice of its own. -/
theorem Notes.Sound.stage_kin {n : Notes} {c : NodeId} {k : Kid} (h : n.Sound)
    (hkid : n.kids c = some k) (hout : k.phase.outcome ≠ none) (hawait : c ∉ n.awaiting)
    (hnew : c ∉ n.concluded) : k.kin ≠ .node := by
  intro hkin
  obtain ⟨kin, p⟩ := k
  subst hkin
  cases p with
  | registered => exact hout rfl
  | running => exact hout rfl
  | joining => exact hout rfl
  | published o =>
    apply hawait
    exact (h.awaiting c).mpr (Or.inl ⟨_, hkid, rfl⟩)
  | ended o =>
    apply hnew
    have hposted := (h.node c _ hkid).2.mpr ⟨o, rfl⟩
    exact (h.concluded c).mpr (List.mem_append_left _ hposted)

theorem Notes.Sound.step {n n' : Notes} (h : n.Sound) (hstep : n.Step n') : n'.Sound := by
  cases hstep with
  | stay => exact h
  | register c kin hnew =>
    apply h.setKid
    · intro p hp
      have hunknown : c ∉ n.posted ++ n.recording := fun hc => h.known c hc hnew
      rw [List.mem_append, not_or] at hunknown
      have hphase : p = .registered := by
        obtain ⟨rfl, rfl⟩ := Kid.mk.inj hp
        rfl
      refine ⟨hunknown.2, fun hc => absurd hc hunknown.1, ?_⟩
      rintro ⟨o, ho⟩
      rw [hphase] at ho
      cases ho
    · constructor
      · rintro ⟨p, hp, -⟩
        rw [hnew] at hp
        cases hp
      · rintro ⟨p, hp, hawait⟩
        obtain ⟨rfl, rfl⟩ := Kid.mk.inj hp
        cases hawait
  | expect c hkid =>
    have hnone := h.node c _ hkid
    refine ⟨h.nodup, h.concluded, fun d => ?_, fun d p hd => ?_,
      fun d hd => kid_update_ne_none (h.known d hd), h.arrived⟩
    · show d ∈ insert c n.awaiting ↔ _
      rw [Finset.mem_insert, h.awaiting]
      by_cases hdc : d = c
      · subst hdc
        simp [Phase.awaited]
      · simp only [hdc, false_or, Function.update_of_ne hdc]
    · rcases kid_update hd with ⟨rfl, hk⟩ | ⟨-, hd⟩
      · obtain ⟨-, rfl⟩ := Kid.mk.inj hk
        refine ⟨hnone.1, fun hc => ?_, ?_⟩
        · obtain ⟨o, ho⟩ := hnone.2.mp hc
          cases ho
        · rintro ⟨o, ho⟩
          cases ho
      · exact h.node d p hd
  | advance c kin p p' hkid hp hp' =>
    -- Neither phase is the last one, and the notice stays expected.
    have hlast : ∀ {q : Phase}, q.awaited = true → ¬ ∃ o, q = .ended o := by
      rintro q hq ⟨o, rfl⟩
      cases hq
    apply h.setKid
    · intro q hq
      obtain ⟨rfl, rfl⟩ := Kid.mk.inj hq
      obtain ⟨hrec, hposted⟩ := h.node c _ hkid
      exact ⟨hrec, fun hc => absurd (hposted.mp hc) (hlast hp),
        fun hend => absurd hend (hlast hp')⟩
    · constructor
      · rintro ⟨q, hq, -⟩
        rw [hkid, Option.some.injEq, Kid.mk.injEq] at hq
        exact ⟨p', by rw [hq.1], hp'⟩
      · rintro ⟨q, hq, -⟩
        obtain ⟨rfl, rfl⟩ := Kid.mk.inj hq
        exact ⟨p, hkid, hp⟩
  | notify c o hkid =>
    obtain ⟨hrec, hposted⟩ := h.node c _ hkid
    have hnew : c ∉ n.posted := fun hc => by
      obtain ⟨o', ho'⟩ := hposted.mp hc
      cases ho'
    have hperm : (n.posted ++ [c] ++ n.recording).Perm (c :: (n.posted ++ n.recording)) := by
      rw [List.append_assoc]
      exact List.perm_middle
    have hmem : ∀ d, d ∈ n.posted ++ [c] ++ n.recording ↔ d = c ∨ d ∈ n.posted ++ n.recording :=
      fun d => hperm.mem_iff.trans List.mem_cons
    refine ⟨?_, fun d => ?_, fun d => ?_, fun d p hd => ?_, fun d hd => ?_, h.arrive⟩
    · show (n.posted ++ [c] ++ n.recording).Nodup
      rw [hperm.nodup_iff, List.nodup_cons, List.mem_append, not_or]
      exact ⟨⟨hnew, hrec⟩, h.nodup⟩
    · show d ∈ insert c n.concluded ↔ d ∈ n.posted ++ [c] ++ n.recording
      rw [Finset.mem_insert, h.concluded, hmem]
    · show d ∈ n.awaiting.erase c ↔ _
      rw [Finset.mem_erase, h.awaiting]
      by_cases hdc : d = c
      · subst hdc
        simp [Phase.awaited, Notes.arrive, hrec]
      · simp only [ne_eq, hdc, not_false_eq_true, true_and, Notes.arrive,
          Function.update_of_ne hdc]
    · show d ∉ n.recording ∧ (d ∈ n.posted ++ [c] ↔ _)
      rcases kid_update hd with ⟨rfl, hk⟩ | ⟨hdc, hd⟩
      · obtain ⟨-, rfl⟩ := Kid.mk.inj hk
        exact ⟨hrec, fun _ => ⟨o, rfl⟩, fun _ => by simp⟩
      · have hold := h.node d p hd
        simpa [hdc] using hold
    · rcases (hmem d).mp hd with rfl | hd
      · simp
      · exact kid_update_ne_none (h.known d hd)
  | stage c k hkid hout hopen hawait hnew =>
    have hkin := h.stage_kin hkid hout hawait hnew
    have hfresh : c ∉ n.posted ++ n.recording := fun hc => hnew ((h.concluded c).mpr hc)
    have hperm : (n.posted ++ (n.recording ++ [c])).Perm (c :: (n.posted ++ n.recording)) := by
      rw [← List.append_assoc]
      exact List.perm_append_comm
    have hmem : ∀ d, d ∈ n.posted ++ (n.recording ++ [c]) ↔
        d = c ∨ d ∈ n.posted ++ n.recording :=
      fun d => hperm.mem_iff.trans List.mem_cons
    refine ⟨?_, fun d => ?_, fun d => ?_, fun d p hd => ?_, fun d hd => ?_, h.arrived⟩
    · show (n.posted ++ (n.recording ++ [c])).Nodup
      rw [hperm.nodup_iff, List.nodup_cons]
      exact ⟨hfresh, h.nodup⟩
    · show d ∈ insert c n.concluded ↔ d ∈ n.posted ++ (n.recording ++ [c])
      rw [Finset.mem_insert, h.concluded, hmem]
    · show d ∈ insert c n.awaiting ↔ _ ∨ d ∈ n.recording ++ [c]
      rw [Finset.mem_insert, h.awaiting, List.mem_append, List.mem_singleton]
      constructor
      · rintro (hd | hd | hd)
        · exact Or.inr (Or.inr hd)
        · exact Or.inl hd
        · exact Or.inr (Or.inl hd)
      · rintro (hd | hd | hd)
        · exact Or.inr (Or.inl hd)
        · exact Or.inr (Or.inr hd)
        · exact Or.inl hd
    · show d ∉ n.recording ++ [c] ∧ _
      obtain ⟨hrec, hposted⟩ := h.node d p hd
      refine ⟨fun hmem => ?_, hposted⟩
      rcases List.mem_append.mp hmem with hmem | hmem
      · exact hrec hmem
      · obtain rfl := List.mem_singleton.mp hmem
        apply hkin
        rw [show n.kids d = some ⟨.node, p⟩ from hd, Option.some.injEq] at hkid
        rw [← hkid]
    · rcases (hmem d).mp hd with rfl | hd
      · show n.kids d ≠ none
        rw [hkid]
        exact Option.some_ne_none k
      · exact h.known d hd
  | conclude c rest hperm =>
    have hrec : c ∈ n.recording := hperm.mem_iff.mpr List.mem_cons_self
    have hall : (n.posted ++ [c] ++ rest).Perm (n.posted ++ n.recording) := by
      rw [List.append_assoc]
      exact hperm.symm.append_left _
    have hrest : c ∉ rest := by
      have hnodup := (List.nodup_append.mp h.nodup).2.1
      exact (List.nodup_cons.mp (hperm.nodup_iff.mp hnodup)).1
    have hother : ∀ d ≠ c, (d ∈ n.recording ↔ d ∈ rest) := fun d hd => by
      rw [hperm.mem_iff, List.mem_cons]
      simp [hd]
    refine ⟨?_, fun d => ?_, fun d => ?_, fun d p hd => ?_, fun d hd => ?_, h.arrive⟩
    · show (n.posted ++ [c] ++ rest).Nodup
      exact hall.nodup_iff.mpr h.nodup
    · show d ∈ insert c n.concluded ↔ d ∈ n.posted ++ [c] ++ rest
      rw [Finset.mem_insert, h.concluded, hall.mem_iff, or_iff_right_iff_imp]
      rintro rfl
      exact List.mem_append_right _ hrec
    · show d ∈ n.awaiting.erase c ↔ (∃ p, n.kids d = _ ∧ _) ∨ d ∈ rest
      rw [Finset.mem_erase, h.awaiting]
      by_cases hdc : d = c
      · subst hdc
        refine ⟨fun hd => absurd rfl hd.1, ?_⟩
        rintro (⟨p, hd, -⟩ | hd)
        · exact absurd hrec (h.node d p hd).1
        · exact absurd hd hrest
      · rw [hother d hdc]
        simp [hdc]
    · show d ∉ rest ∧ (d ∈ n.posted ++ [c] ↔ _)
      obtain ⟨hdrec, hposted⟩ := h.node d p hd
      have hdc : d ≠ c := fun heq => hdrec (heq ▸ hrec)
      refine ⟨fun hd' => hdrec ((hother d hdc).mpr hd'), ?_⟩
      rw [← hposted]
      simp [hdc]
    · exact h.known d (hall.mem_iff.mp hd)
  | take out rest hqueued =>
    refine ⟨h.nodup, h.concluded, h.awaiting, h.node, h.known, fun d hd => ?_⟩
    rcases h.arrived d hd with hq | hs | hc
    · rcases hqueued d hq with hout | hrest
      · exact Or.inr (Or.inl (Finset.mem_union_right _ hout))
      · exact Or.inl hrest
    · exact Or.inr (Or.inl (Finset.mem_union_left _ hs))
    · exact Or.inr (Or.inr hc)
  | shut shut =>
    refine ⟨h.nodup, h.concluded, h.awaiting, h.node, h.known, fun d hd => ?_⟩
    rcases h.arrived d hd with hq | hs | hc
    · exact Or.inl hq
    · exact Or.inr (Or.inl hs)
    · exact Or.inr (Or.inr (by simp [hc]))
  | close =>
    exact ⟨h.nodup, h.concluded, h.awaiting, h.node, h.known, fun d hd => Or.inr (Or.inr rfl)⟩
  | saw c =>
    refine ⟨h.nodup, h.concluded, h.awaiting, h.node, h.known, fun d hd => ?_⟩
    rcases h.arrived d hd with hq | hs | hc
    · exact Or.inl hq
    · exact Or.inr (Or.inl (Finset.mem_insert_of_mem hs))
    · exact Or.inr (Or.inr hc)

/-- What was pushed stays pushed, and what is concluded stays concluded. -/
theorem Notes.Step.mono {n n' : Notes} (h : n.Step n') :
    (∀ c ∈ n.posted, c ∈ n'.posted) ∧ n.concluded ⊆ n'.concluded := by
  cases h with
  | notify c o hkid =>
    exact ⟨fun d hd => List.mem_append_left _ hd, Finset.subset_insert _ _⟩
  | stage c k hkid hout hopen hawait hnew => exact ⟨fun d hd => hd, Finset.subset_insert _ _⟩
  | conclude c rest hperm =>
    exact ⟨fun d hd => List.mem_append_left _ hd, Finset.subset_insert _ _⟩
  | _ => exact ⟨fun d hd => hd, Finset.Subset.refl _⟩

theorem notes_init (cfg : Config) : (inbox cfg).init.notes.Sound := by
  constructor <;> simp [inbox, State.init, State.notes, terminalSenders, Mailbox.State.default]

theorem notes_of_reachable {cfg : Config} {s : State} (h : (inbox cfg).Reachable s) :
    s.notes.Sound :=
  LTS.System.invariant_with (P := fun s => s.notes.Sound)
    (fun _ => kinds_of_reachable) (notes_init cfg)
    (fun _ _ _ hk _ hs _ hstep => hs.step (notes_step hk hstep)) s h

end Kyora.Inbox
