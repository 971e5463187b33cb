import Kyora.Accumulation.Pushes
import Kyora.Anthropic.Steps

/-! # The two accounts of usage

  The mapper keeps the usage and the model it last reported, the accumulator
  keeps those of the response. They merge an update by different rules: the
  mapper keeps a counter that is not named, the accumulator one that is zero.
-/

namespace Kyora

/-- Events that leave the usage and the model of a response alone. -/
def StreamEvent.quiet (event : StreamEvent) : Bool := event.index?.isSome || event.isMessageStop

namespace Anthropic

open Accumulation (Accumulator)
open Sse (Event)

/-! ### What an event does to the mapper -/

/-- The usage that an event reports. -/
def report? (kind : Kind) (value : Json) : Option Json :=
  match kind with
  | .messageStart => some ((value.index "message").index "usage")
  | .messageDelta => some (value.index "usage")
  | _ => none

/-- What a report makes of the mapper, and which events it gives. -/
structure Reported (m : Mapper) (mapped : StreamEvent) (usage : Json) (m' : Mapper)
    (events : List StreamEvent) (its : Option (List UsageIteration)) : Prop where
  listed : iterations usage = .ok its
  tools : m'.serverTools = m.serverTools
  model : m'.model = ((its.bind serving).elim m.model UsageIteration.model)
  usage : ∀ c, m'.usage.get c =
    (named usage c).getD (((its.bind serving).elim m.usage UsageIteration.usage).get c)
  events : events = mapped :: (its.map fun its => .usageSnapshot m'.model m'.usage its).toList

theorem reported_of_onUsage {m m' : Mapper} {mapped : StreamEvent} {usage : Json}
    {events : List StreamEvent} (h : m.onUsage mapped usage = .ok (m', events)) :
    ∃ its, Reported m mapped usage m' events its := by
  obtain ⟨latest, hcounters, h⟩ := Checks.bind_eq_ok h
  obtain ⟨its, hits, h⟩ := Checks.bind_eq_ok h
  refine ⟨its, ?_⟩
  cases its with
  | none =>
    obtain ⟨rfl, rfl⟩ := Prod.mk.inj (Except.ok.inj h)
    exact ⟨hits, rfl, rfl, get_fillMissingCounters hcounters m.usage, rfl⟩
  | some its =>
    obtain ⟨served, hserved, h⟩ := Checks.bind_eq_ok h
    obtain ⟨rfl, rfl⟩ := Prod.mk.inj (Except.ok.inj h)
    have hbind : (some its).bind serving = serving its := rfl
    have hmodel : served.model = (serving its).elim m.model UsageIteration.model ∧
        served.serverTools = m.serverTools := by
      unfold Mapper.serve at hserved
      cases hserving : serving its with
      | none =>
        rw [hserving] at hserved
        obtain rfl := Except.ok.inj hserved
        exact ⟨rfl, rfl⟩
      | some taker =>
        rw [hserving] at hserved
        by_cases hempty : taker.model = ""
        · simp [hempty] at hserved
        · simp [hempty] at hserved
          rw [← hserved]
          exact ⟨rfl, rfl⟩
    refine ⟨hits, hmodel.2, hbind ▸ hmodel.1, ?_, rfl⟩
    rw [hbind]
    exact get_fillMissingCounters hcounters _

theorem quiet_deltaOf {index : Nat} {kind : String} {delta : Json} {event : StreamEvent}
    (h : deltaOf index kind delta = .ok (some event)) : event.quiet = true := by
  have hmap : ∀ {field : String} {make : String → StreamEvent}, (∀ text, (make text).quiet = true) →
      ((string delta field).map fun text => some (make text)) = .ok (some event) →
        event.quiet = true := by
    intro field make hmake h
    cases hstring : string delta field with
    | error error =>
      rw [hstring] at h
      cases h
    | ok text =>
      rw [hstring] at h
      obtain rfl := Option.some.inj (Except.ok.inj h)
      exact hmake text
  unfold deltaOf at h
  split at h
  · exact hmap (fun _ => rfl) h
  · exact hmap (fun _ => rfl) h
  · exact hmap (fun _ => rfl) h
  · exact hmap (fun _ => rfl) h
  · cases h

section Mapped

variable {fromStr : String → Option Json} {m m' : Mapper} {value : Json}
  {events : List StreamEvent}

theorem reported_of_messageStart (h : m.messageStart value = .ok (m', events)) :
    ∃ id model usage its, counters ((value.index "message").index "usage") = .ok usage ∧
      Reported { m with model, usage } (.messageStart id model usage)
        ((value.index "message").index "usage") m' events its := by
  obtain ⟨model, -, h⟩ := Checks.bind_eq_ok h
  obtain ⟨usage, hcounters, h⟩ := Checks.bind_eq_ok h
  obtain ⟨its, hreported⟩ := reported_of_onUsage h
  exact ⟨_, model, usage, its, hcounters, hreported⟩

theorem reported_of_messageDelta (h : m.messageDelta value = .ok (m', events)) :
    ∃ stopReason usage its, counters (value.index "usage") = .ok usage ∧
      Reported m (.messageDelta stopReason usage) (value.index "usage") m' events its := by
  obtain ⟨stopReason, -, h⟩ := Checks.bind_eq_ok h
  obtain ⟨usage, hcounters, h⟩ := Checks.bind_eq_ok h
  obtain ⟨its, hreported⟩ := reported_of_onUsage h
  exact ⟨stopReason, usage, its, hcounters, hreported⟩

/-- Without a report the mapper keeps its account, and says nothing of it. -/
structure Silent (m m' : Mapper) (events : List StreamEvent) : Prop where
  model : m'.model = m.model
  usage : m'.usage = m.usage
  quiet : ∀ event ∈ events, event.quiet = true

theorem silent_of_maps {kind : Kind} (h : Maps fromStr m kind value m' events)
    (hkind : report? kind value = none) : Silent m m' events := by
  cases h with
  | messageStart => cases hkind
  | messageDelta => cases hkind
  | toolStart => exact ⟨rfl, rfl, by simp⟩
  | toolInput => exact ⟨rfl, rfl, by simp⟩
  | toolStop => exact ⟨rfl, rfl, by simp [StreamEvent.quiet, StreamEvent.index?]⟩
  | toolDelta => exact ⟨rfl, rfl, by simp⟩
  | blockStart => exact ⟨rfl, rfl, by simp [StreamEvent.quiet, StreamEvent.index?]⟩
  | delta hindex hfree htype hevent =>
    refine ⟨rfl, rfl, fun event hmem => ?_⟩
    obtain rfl := Option.mem_toList.mp hmem
    exact quiet_deltaOf hevent
  | blockStop => exact ⟨rfl, rfl, by simp [StreamEvent.quiet, StreamEvent.index?]⟩
  | messageStop => exact ⟨rfl, rfl, by simp [StreamEvent.quiet, StreamEvent.isMessageStop]⟩
  | ignored => exact ⟨rfl, rfl, by simp⟩

/-! ### What a mapped event does to the accumulator -/

theorem quiet_takes {acc acc' : Accumulator} {event : StreamEvent}
    (h : Accumulation.Takes fromStr acc event acc') (hquiet : event.quiet = true) :
    acc'.header = acc.header ∧ acc'.usage = acc.usage := by
  cases h with
  | messageStart => cases hquiet
  | blockStart => exact ⟨rfl, rfl⟩
  | refers => exact ⟨rfl, rfl⟩
  | messageDelta => cases hquiet
  | usageSnapshot => cases hquiet
  | messageStop => exact ⟨rfl, rfl⟩

theorem quiet_pushes {acc acc' : Accumulator} {events : List StreamEvent}
    (h : events.foldlM (Accumulator.push fromStr) acc = .ok acc')
    (hquiet : ∀ event ∈ events, event.quiet = true) :
    acc'.header = acc.header ∧ acc'.usage = acc.usage := by
  induction events generalizing acc with
  | nil =>
    obtain rfl := Except.ok.inj h
    exact ⟨rfl, rfl⟩
  | cons event events ih =>
    obtain ⟨mid, hpush, hrest⟩ := Checks.foldlM_cons_ok.mp h
    obtain ⟨-, htakes⟩ := Accumulation.push_eq_ok.mp hpush
    obtain ⟨hheader, husage⟩ := quiet_takes htakes (hquiet event List.mem_cons_self)
    obtain ⟨hheader', husage'⟩ := ih hrest fun e he => hquiet e (List.mem_cons_of_mem event he)
    exact ⟨hheader'.trans hheader, husage'.trans husage⟩

/-- A snapshot sets the model and the usage to those of the mapper. -/
theorem snapshot_pushes {acc acc' : Accumulator} {usage : Usage} {model : String}
    {its : Option (List UsageIteration)}
    (h : (its.map fun its => StreamEvent.usageSnapshot model usage its).toList.foldlM
      (Accumulator.push fromStr) acc = .ok acc') :
    its = none ∧ acc' = acc ∨
      its.isSome ∧ acc'.header = acc.header.map (fun header => (header.1, model)) ∧
        acc'.usage = usage := by
  cases its with
  | none =>
    obtain rfl := Except.ok.inj h
    exact .inl ⟨rfl, rfl⟩
  | some its =>
    obtain ⟨mid, hpush, hnil⟩ := Checks.foldlM_cons_ok.mp h
    obtain rfl := Except.ok.inj hnil
    obtain ⟨-, htakes⟩ := Accumulation.push_eq_ok.mp hpush
    cases htakes with
    | usageSnapshot => exact .inr ⟨rfl, rfl, rfl⟩
    | refers _ hrefers => cases hrefers

theorem get_updateUsage (current latest : Usage) (c : Counter) :
    (Accumulation.updateUsage current latest).get c =
      Accumulation.updated (current.get c) (latest.get c) := by
  cases c <;> rfl

end Mapped

/-! ### Agreement -/

/-- The accumulator has the model and the usage of the mapper, once a message has started. -/
def State.Agrees (s : State) : Prop :=
  ∀ id model, s.acc.header = some (id, model) →
    model = s.mapper.model ∧ s.acc.usage = s.mapper.usage

section Conditions

variable (fromStr : String → Option Json)

/-- An update reports no explicit zero for a counter that was not zero before, unless it
    hands over to another model. -/
def Cumulative (m : Mapper) (event : Event) : Prop :=
  ∀ value c, parsed fromStr event = .ok (.messageDelta, value) →
    reported (value.index "usage") c = some 0 → m.usage.get c ≠ 0 →
      ∃ its taker, iterations (value.index "usage") = .ok (some its) ∧ serving its = some taker ∧
        taker.model ≠ m.model

/-- An update that reports its counters as a list repeats the mapper's counters. -/
def Repeats (m : Mapper) (event : Event) : Prop :=
  ∀ value items c n, parsed fromStr event = .ok (.messageDelta, value) →
    value.index "usage" = .array items → reported (.array items) c = some n →
      n = m.usage.get c

end Conditions

section Steps

variable {fromStr : String → Option Json} {key : String} {s t : State} {event : Event}

/-- The start of a message sets both accounts. -/
theorem agrees_messageStart {value : Json} {events : List StreamEvent}
    (h : s.mapper.messageStart value = .ok (t.mapper, events))
    (hpush : events.foldlM (Accumulator.push fromStr) s.acc = .ok t.acc) : t.Agrees := by
  obtain ⟨id, model, usage, its, hcounters, hreported⟩ := reported_of_messageStart h
  rw [hreported.events] at hpush
  obtain ⟨acc, hstart, hrest⟩ := Checks.foldlM_cons_ok.mp hpush
  obtain ⟨-, htakes⟩ := Accumulation.push_eq_ok.mp hstart
  cases htakes with
  | refers _ hrefers => cases hrefers
  | messageStart =>
    intro id' model' hheader
    rcases snapshot_pushes hrest with ⟨rfl, hacc⟩ | ⟨-, hset, husage⟩
    · rw [hacc] at hheader ⊢
      obtain ⟨-, rfl⟩ := Prod.mk.inj (Option.some.inj hheader)
      refine ⟨hreported.model.symm, Usage.ext_get fun c => ?_⟩
      -- What is not named is what the message started with.
      have hget := counters_get hcounters c
      rw [hreported.usage]
      cases hnamed : named ((value.index "message").index "usage") c with
      | none => rfl
      | some n =>
        rw [reported_of_named hnamed] at hget
        exact hget
    · rw [hset] at hheader
      obtain ⟨-, rfl⟩ := Prod.mk.inj (Option.some.inj hheader)
      exact ⟨rfl, husage⟩

/-- A counter that is not zero and goes to zero is in a report that hands over. -/
theorem Cumulative.zero {m : Mapper} {value : Json} (h : Cumulative fromStr m event)
    (hparsed : parsed fromStr event = .ok (.messageDelta, value))
    (hits : iterations (value.index "usage") = .ok none) {c : Counter}
    (hzero : reported (value.index "usage") c = some 0) : m.usage.get c = 0 := by
  by_contra hne
  obtain ⟨its, taker, hsome, -⟩ := h value c hparsed hzero hne
  rw [hits] at hsome
  cases Except.ok.inj hsome

/-- One counter of an update, in the two accounts. -/
theorem updated_eq_iff {m : Mapper} {value : Json} (h : Cumulative fromStr m event)
    (hparsed : parsed fromStr event = .ok (.messageDelta, value))
    (hits : iterations (value.index "usage") = .ok none) (c : Counter) :
    Accumulation.updated (m.usage.get c) ((reported (value.index "usage") c).getD 0) =
        (named (value.index "usage") c).getD (m.usage.get c) ↔
      ∀ items n, value.index "usage" = .array items → reported (.array items) c = some n →
        n = m.usage.get c := by
  unfold Accumulation.updated
  constructor
  · intro heq items n harray hreported
    rw [harray, hreported] at heq
    by_cases hn : n = 0
    · have hzero := h.zero hparsed hits (harray ▸ hn ▸ hreported)
      rw [hn, hzero]
    · exact (if_pos hn).symm.trans heq
  · intro hrepeats
    cases hreported : reported (value.index "usage") c with
    | none =>
      have hnamed : named (value.index "usage") c = none := by
        cases hnamed : named (value.index "usage") c with
        | none => rfl
        | some n =>
          rw [reported_of_named hnamed] at hreported
          cases hreported
      rw [hnamed]
      exact if_neg fun hne => hne rfl
    | some n =>
      rw [Option.getD_some]
      have hcurrent : n = 0 → m.usage.get c = 0 := fun hn => h.zero hparsed hits (hn ▸ hreported)
      rcases named_or_listed hreported with hnamed | ⟨items, harray⟩
      · rw [hnamed, Option.getD_some]
        by_cases hn : n = 0
        · rw [if_neg (not_not.mpr hn), hcurrent hn, hn]
        · exact if_pos hn
      · -- A list names nothing, so the mapper keeps its counter.
        have hn : n = m.usage.get c := hrepeats items n harray (harray ▸ hreported)
        rw [harray]
        show (if n ≠ 0 then n else m.usage.get c) = m.usage.get c
        rw [hn]
        exact ite_self _

/-- An update is the same to both accounts unless it lists other counters. -/
theorem agrees_messageDelta {value : Json} {events : List StreamEvent} (hagrees : s.Agrees)
    (hcumulative : Cumulative fromStr s.mapper event)
    (hparsed : parsed fromStr event = .ok (.messageDelta, value))
    (h : s.mapper.messageDelta value = .ok (t.mapper, events))
    (hpush : events.foldlM (Accumulator.push fromStr) s.acc = .ok t.acc) :
    t.Agrees ↔ Repeats fromStr s.mapper event := by
  obtain ⟨stopReason, usage, its, hcounters, hreported⟩ := reported_of_messageDelta h
  rw [hreported.events] at hpush
  obtain ⟨acc, hdelta, hrest⟩ := Checks.foldlM_cons_ok.mp hpush
  obtain ⟨-, htakes⟩ := Accumulation.push_eq_ok.mp hdelta
  cases htakes with
  | refers _ hrefers => cases hrefers
  | messageDelta _ _ hheader =>
    obtain ⟨⟨id, model⟩, hheader⟩ := Option.isSome_iff_exists.mp hheader
    obtain ⟨hmodel, husage⟩ := hagrees id model hheader
    rcases snapshot_pushes hrest with ⟨rfl, hacc⟩ | ⟨hsome, hset, hsnapshot⟩
    · have hgets : t.Agrees ↔ ∀ c, Accumulation.updated (s.mapper.usage.get c)
          ((reported (value.index "usage") c).getD 0) =
            (named (value.index "usage") c).getD (s.mapper.usage.get c) := by
        have hget : ∀ c, t.acc.usage.get c = Accumulation.updated (s.mapper.usage.get c)
            ((reported (value.index "usage") c).getD 0) := by
          intro c
          rw [hacc, ← counters_get hcounters c, ← husage]
          exact get_updateUsage s.acc.usage usage c
        constructor
        · intro hagrees' c
          have hsame := (hagrees' id model (hacc ▸ hheader)).2
          rw [← hget, hsame]
          exact hreported.usage c
        · intro hall id' model' hheader'
          rw [hacc] at hheader'
          obtain ⟨-, rfl⟩ := Prod.mk.inj (Option.some.inj (hheader.symm.trans hheader'))
          refine ⟨hmodel.trans hreported.model.symm, Usage.ext_get fun c => ?_⟩
          rw [hget, hall]
          exact (hreported.usage c).symm
      rw [hgets]
      constructor
      · intro hall value' items c n hparsed' harray hitem
        obtain ⟨-, rfl⟩ := Prod.mk.inj (Except.ok.inj (hparsed.symm.trans hparsed'))
        have hiff := updated_eq_iff hcumulative hparsed hreported.listed c
        exact hiff.mp (hall c) items n harray hitem
      · intro hrepeats c
        apply (updated_eq_iff hcumulative hparsed hreported.listed c).mpr
        exact fun items n harray hitem => hrepeats value items c n hparsed harray hitem
    · constructor
      · intro _ value' items c n hparsed' harray
        obtain ⟨-, rfl⟩ := Prod.mk.inj (Except.ok.inj (hparsed.symm.trans hparsed'))
        have hlisted := hreported.listed
        rw [harray] at hlisted
        obtain rfl : none = its := Except.ok.inj hlisted
        cases hsome
      · intro _ id' model' hheader'
        rw [hset] at hheader'
        obtain ⟨header, -, heq⟩ := Option.map_eq_some_iff.mp hheader'
        obtain ⟨-, rfl⟩ := Prod.mk.inj heq
        exact ⟨rfl, hsnapshot⟩

/-- One event keeps the accounts the same unless it is an update that lists other counters. -/
theorem agrees_feed_iff (hagrees : s.Agrees) (hcumulative : Cumulative fromStr s.mapper event)
    (h : s.feed fromStr key event = .ok t) : t.Agrees ↔ Repeats fromStr s.mapper event := by
  obtain ⟨kind, value, events, hparsed, hmaps, hpush⟩ := maps_of_feed h
  by_cases hdelta : kind = .messageDelta
  · subst hdelta
    exact agrees_messageDelta hagrees hcumulative hparsed hmaps.update hpush
  · have hrepeats : Repeats fromStr s.mapper event := by
      intro value' items c n hparsed'
      obtain ⟨hkind, -⟩ := Prod.mk.inj (Except.ok.inj (hparsed.symm.trans hparsed'))
      exact absurd hkind hdelta
    refine iff_of_true ?_ hrepeats
    by_cases hstart : kind = .messageStart
    · subst hstart
      exact agrees_messageStart hmaps.start hpush
    · have hsilent : Silent s.mapper t.mapper events := by
        apply silent_of_maps hmaps
        cases kind <;> first | rfl | exact absurd rfl hdelta | exact absurd rfl hstart
      obtain ⟨hheader, husage⟩ := quiet_pushes hpush hsilent.quiet
      intro id model hsome
      rw [hheader] at hsome
      rw [husage, hsilent.model, hsilent.usage]
      exact hagrees id model hsome

end Steps

/-! ### Streams -/

section Streams

variable (fromStr : String → Option Json) (key : String) (events : List Event)

/-- The counters of a stream are cumulative. -/
def CumulativeThroughout : Prop :=
  ∀ before event after s, events = before ++ event :: after →
    State.run fromStr key before = .ok s → Cumulative fromStr s.mapper event

/-- The updates of a stream that list their counters repeat those of the mapper. -/
def RepeatsThroughout : Prop :=
  ∀ before event after s, events = before ++ event :: after →
    State.run fromStr key before = .ok s → Repeats fromStr s.mapper event

/-- What the two accounts of a stream promise, which ends in a state. -/
structure UsageAgreement (s : State) : Prop where
  throughout : ∀ before after t, events = before ++ after →
    State.run fromStr key before = .ok t → t.Agrees
  charged : ∀ response, s.acc.finish = .ok response →
    response.usage = s.mapper.usage ∧ response.model = s.mapper.model
  /-- What a report that hands over omits comes from the serving iteration. -/
  handedOver : ∀ before event after t t' kind value usage its taker,
    events = before ++ event :: after → State.run fromStr key before = .ok t →
      t.feed fromStr key event = .ok t' → parsed fromStr event = .ok (kind, value) →
        report? kind value = some usage → iterations usage = .ok (some its) →
          serving its = some taker → t'.mapper.model = taker.model ∧
            ∀ c, t'.mapper.usage.get c = (reported usage c).getD (taker.usage.get c)

end Streams

section Runs

variable {fromStr : String → Option Json} {key : String} {events : List Event} {s t t' : State}

theorem agrees_new : State.new.Agrees := fun _ _ h => by cases h

/-- The states of a stream agree as long as its lists repeat the counters. -/
theorem agrees_of_repeats (hcumulative : CumulativeThroughout fromStr key events)
    (hrepeats : RepeatsThroughout fromStr key events) {before after : List Event}
    (hevents : events = before ++ after) (hrun : State.run fromStr key before = .ok t) :
    t.Agrees := by
  induction before using List.reverseRecOn generalizing after t with
  | nil =>
    obtain rfl := Except.ok.inj hrun
    exact agrees_new
  | append_singleton before event ih =>
    have hsplit : events = before ++ event :: after := by rw [hevents, List.append_assoc]; rfl
    obtain ⟨mid, hbefore, hfeed⟩ := Checks.foldlM_concat_ok.mp hrun
    have hmid : mid.Agrees := ih hsplit hbefore
    have hcum := hcumulative before event after mid hsplit hbefore
    exact (agrees_feed_iff hmid hcum hfeed).mpr (hrepeats before event after mid hsplit hbefore)

/-- A stream whose states agree repeats the counters in its lists. -/
theorem repeats_of_agrees (hrun : State.run fromStr key events = .ok s)
    (hcumulative : CumulativeThroughout fromStr key events)
    (hagrees : ∀ before after t, events = before ++ after →
      State.run fromStr key before = .ok t → t.Agrees) :
    RepeatsThroughout fromStr key events := by
  intro before event after mid hsplit hbefore
  have hnext : events = (before ++ [event]) ++ after := by
    rw [hsplit, List.append_assoc]
    rfl
  -- The run goes on past the event.
  rw [hnext] at hrun
  obtain ⟨next, hconcat, -⟩ := Checks.foldlM_append_ok.mp hrun
  obtain ⟨mid', hbefore', hfeed⟩ := Checks.foldlM_concat_ok.mp hconcat
  obtain rfl : mid = mid' := Except.ok.inj (hbefore.symm.trans hbefore')
  have hmid := hagrees before (event :: after) mid hsplit hbefore
  have hcum := hcumulative before event after mid hsplit hbefore
  exact (agrees_feed_iff hmid hcum hfeed).mp (hagrees (before ++ [event]) after next hnext hconcat)

theorem charged_of_agrees (h : s.Agrees) {response : Accumulation.CompleteResponse}
    (hfinish : s.acc.finish = .ok response) :
    response.usage = s.mapper.usage ∧ response.model = s.mapper.model := by
  unfold Accumulator.finish at hfinish
  cases hstopped : s.acc.stopped with
  | false =>
    rw [hstopped] at hfinish
    cases hfinish
  | true =>
    cases hheader : s.acc.header with
    | none =>
      rw [hstopped, hheader] at hfinish
      cases hfinish
    | some header =>
      cases hreason : s.acc.stopReason with
      | none =>
        rw [hstopped, hheader, hreason] at hfinish
        cases hfinish
      | some reason =>
        rw [hstopped, hheader, hreason] at hfinish
        obtain rfl := Except.ok.inj hfinish
        obtain ⟨hmodel, husage⟩ := h header.1 header.2 hheader
        exact ⟨husage, hmodel⟩

/-- A report that hands over, whatever was reported before. -/
theorem handedOver_of_feed {event : Event} {kind : Kind} {value usage : Json}
    {its : List UsageIteration} {taker : UsageIteration}
    (hfeed : t.feed fromStr key event = .ok t') (hparsed : parsed fromStr event = .ok (kind, value))
    (hreport : report? kind value = some usage) (hits : iterations usage = .ok (some its))
    (htaker : serving its = some taker) :
    t'.mapper.model = taker.model ∧
      ∀ c, t'.mapper.usage.get c = (reported usage c).getD (taker.usage.get c) := by
  obtain ⟨kind', value', mapped, hparsed', hmaps, -⟩ := maps_of_feed hfeed
  obtain ⟨rfl, rfl⟩ := Prod.mk.inj (Except.ok.inj (hparsed.symm.trans hparsed'))
  have hserves : ∀ {m : Mapper} {first : StreamEvent} {its' : Option (List UsageIteration)},
      Reported m first usage t'.mapper mapped its' → t'.mapper.model = taker.model ∧
        ∀ c, t'.mapper.usage.get c = (reported usage c).getD (taker.usage.get c) := by
    intro m first its' hreported
    obtain rfl : its' = some its := Except.ok.inj (hreported.listed.symm.trans hits)
    have hserving : (some its).bind serving = some taker := htaker
    refine ⟨by rw [hreported.model, hserving]; rfl, fun c => ?_⟩
    rw [hreported.usage, hserving, named_of_iterations hits]
    rfl
  cases kind with
  | messageStart =>
    obtain rfl := Option.some.inj hreport
    obtain ⟨_, _, _, _, -, hreported⟩ := reported_of_messageStart hmaps.start
    exact hserves hreported
  | messageDelta =>
    obtain rfl := Option.some.inj hreport
    obtain ⟨_, _, _, -, hreported⟩ := reported_of_messageDelta hmaps.update
    exact hserves hreported
  | _ => cases hreport

end Runs

/-- The mapper and the accumulator agree on usage and model throughout a stream with
    cumulative counters exactly if no update lists other counters than the mapper has. -/
theorem usage_agreement_iff {fromStr : String → Option Json} {key : String} {events : List Event}
    {s : State} (hrun : State.run fromStr key events = .ok s)
    (hcumulative : CumulativeThroughout fromStr key events) :
    UsageAgreement fromStr key events s ↔ RepeatsThroughout fromStr key events := by
  constructor
  · exact fun h => repeats_of_agrees hrun hcumulative h.throughout
  · intro hrepeats
    constructor
    · exact fun before after t => agrees_of_repeats hcumulative hrepeats
    · intro response hfinish
      have hagrees := agrees_of_repeats hcumulative hrepeats (List.append_nil events).symm hrun
      exact charged_of_agrees hagrees hfinish
    · intro before event after t t' kind value usage its taker _ _ hfeed hparsed hreport
      exact handedOver_of_feed hfeed hparsed hreport

/-! ### Two streams -/

/-- An event that is named by its kind. -/
theorem parsed_named {fromStr : String → Option Json} {kind text : String} {value : Json}
    (hping : kind ≠ "ping") (hmessage : kind ≠ "message") (h : fromStr text = some value) :
    parsed fromStr ⟨kind.toList, text.toList, [], none⟩ = .ok (Kind.ofStr kind, value) := by
  have hping' : kind.toList ≠ "ping".toList := fun heq => hping (String.toList_inj.mp heq)
  have hmessage' : kind.toList ≠ "message".toList := fun heq => hmessage (String.toList_inj.mp heq)
  unfold parsed
  rw [if_neg hping', String.ofList_toList, h]
  dsimp only
  rw [if_neg hmessage', String.ofList_toList]
  rfl

theorem fromStr_second {first second : String × String × Json} (h : second.2.1 ≠ first.2.1) :
    Sample.fromStr [first, second] second.2.1 = some second.2.2 := by
  unfold Sample.fromStr
  rw [List.map_cons, List.map_singleton, List.lookup_cons, beq_false_of_ne h]
  exact List.lookup_cons_self

/-- A single update without an explicit zero is cumulative. -/
theorem cumulative_of_update {fromStr : String → Option Json} {key : String}
    {first second : Event} {started value : Json}
    (hfirst : parsed fromStr first = .ok (.messageStart, started))
    (hsecond : parsed fromStr second = .ok (.messageDelta, value))
    (hnonzero : ∀ c, reported (value.index "usage") c ≠ some 0) :
    CumulativeThroughout fromStr key [first, second] := by
  intro before event after s hsplit _ value' c hparsed hzero
  have hmem : event ∈ [first, second] := by simp [hsplit]
  rcases List.mem_cons.mp hmem with rfl | hmem
  · cases hfirst.symm.trans hparsed
  · obtain rfl := List.mem_singleton.mp hmem
    obtain ⟨-, rfl⟩ := Prod.mk.inj (Except.ok.inj (hsecond.symm.trans hparsed))
    exact absurd hzero (hnonzero c)

/-- An update that hands over, and omits what the serving iteration has. -/
def handedSample : Sample :=
  [startSample, ("message_delta",
    "\x7b\"usage\":\x7b\"iterations\":[\x7b\"input_tokens\":9,\"model\":\"b\"," ++
      "\"type\":\"fallback_message\"\x7d],\"output_tokens\":6\x7d\x7d",
    .object [("usage", .object [
      ("iterations", .array [.object [("input_tokens", .integer 9), ("model", .string "b"),
        ("type", .string "fallback_message")]]),
      ("output_tokens", .integer 6)])])]

/-- The input counter comes from the serving iteration, not from the first model. -/
theorem usage_agreement_handed : ∃ s,
    State.run handedSample.fromStr "" handedSample.events = .ok s ∧
      s.mapper.model = "b" ∧ s.mapper.usage = ⟨9, 6, 0, 0⟩ ∧
        (UsageAgreement handedSample.fromStr "" handedSample.events s ↔
          RepeatsThroughout handedSample.fromStr "" handedSample.events) := by
  have hrun : (State.run handedSample.fromStr "" handedSample.events).toOption.map
      (fun s => (s.mapper.model, s.mapper.usage)) = some ("b", ⟨9, 6, 0, 0⟩) := by decide +kernel
  obtain ⟨s, hs, heq⟩ := Option.map_eq_some_iff.mp hrun
  obtain ⟨hmodel, husage⟩ := Prod.mk.inj heq
  have hok := Checks.eq_ok_of_toOption hs
  have hcumulative : CumulativeThroughout handedSample.fromStr "" handedSample.events := by
    apply cumulative_of_update (parsed_named (by decide) (by decide) rfl)
    · exact parsed_named (by decide) (by decide) (fromStr_second (by decide))
    · exact fun c => by cases c <;> decide
  exact ⟨s, hok, hmodel, husage, usage_agreement_iff hok hcumulative⟩

/-- An update that lists its first counter. -/
def listedSample : Sample :=
  [startSample,
    ("message_delta", "\x7b\"usage\":[7]\x7d", .object [("usage", .array [.integer 7])])]

/-- The accumulator takes a listed counter, the mapper does not. -/
theorem usage_disagrees : ∃ s,
    State.run listedSample.fromStr "" listedSample.events = .ok s ∧
      CumulativeThroughout listedSample.fromStr "" listedSample.events ∧ ¬s.Agrees := by
  have hrun : (State.run listedSample.fromStr "" listedSample.events).toOption.map
      (fun s => (s.acc.header, s.acc.usage, s.mapper.usage)) =
        some (some (none, "a"), ⟨7, 0, 0, 0⟩, ⟨5, 0, 0, 0⟩) := by decide +kernel
  obtain ⟨s, hs, heq⟩ := Option.map_eq_some_iff.mp hrun
  obtain ⟨hheader, heq⟩ := Prod.mk.inj heq
  obtain ⟨hacc, hmapper⟩ := Prod.mk.inj heq
  have hcumulative : CumulativeThroughout listedSample.fromStr "" listedSample.events := by
    apply cumulative_of_update (parsed_named (by decide) (by decide) rfl)
    · exact parsed_named (by decide) (by decide) (fromStr_second (by decide))
    · exact fun c => by cases c <;> decide
  refine ⟨s, Checks.eq_ok_of_toOption hs, hcumulative, fun hagrees => ?_⟩
  have husage := (hagrees none "a" hheader).2
  rw [hacc, hmapper] at husage
  cases husage

end Anthropic

end Kyora
