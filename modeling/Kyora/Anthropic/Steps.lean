import Kyora.Anthropic.Mapper
import Kyora.Framework.Checks

/-! # What an event does to the mapper

  The events that the mapper accepts, one case for each way through `map_event`.
-/

namespace Kyora.Anthropic

section Maps

variable (fromStr : String → Option Json)

/-- An event that the mapper accepts. The last five cases leave it as it is. -/
inductive Maps (m : Mapper) : Kind → Json → Mapper → List StreamEvent → Prop
  | messageStart {value : Json} {m' : Mapper} {events : List StreamEvent}
      (h : m.messageStart value = .ok (m', events)) : Maps m .messageStart value m' events
  | messageDelta {value : Json} {m' : Mapper} {events : List StreamEvent}
      (h : m.messageDelta value = .ok (m', events)) : Maps m .messageDelta value m' events
  /-- A server tool starts. Its block is withheld. -/
  | toolStart {value : Json} {index : Nat}
      (htype : string (value.index "content_block") "type" = .ok "server_tool_use")
      (hindex : Anthropic.index value = .ok index) (hfree : m.serverTools.get? index = none) :
      Maps m .contentBlockStart value
        { m with serverTools := m.serverTools.insert index (value.index "content_block", "") } []
  /-- A part of a server tool's input. -/
  | toolInput {value : Json} {index : Nat} {raw : Json} {text part : String}
      (hindex : Anthropic.index value = .ok index)
      (htool : m.serverTools.get? index = some (raw, text))
      (htype : string (value.index "delta") "type" = .ok "input_json_delta")
      (hpart : string (value.index "delta") "partial_json" = .ok part) :
      Maps m .contentBlockDelta value
        { m with serverTools := m.serverTools.insert index (raw, text ++ part) } []
  /-- A server tool stops. Its block is let out. -/
  | toolStop {value : Json} {index : Nat} {raw raw' : Json} {text : String}
      (hindex : Anthropic.index value = .ok index)
      (htool : m.serverTools.get? index = some (raw, text))
      (hcompleted : completed fromStr raw text = .ok raw') :
      Maps m .contentBlockStop value { m with serverTools := m.serverTools.erase index }
        [.blockStart index (.opaqueBlock "anthropic" "server_tool_use" raw'), .blockStop index]
  /-- A delta of a server tool that is not of its input. -/
  | toolDelta {value : Json} {index : Nat} {tool : Json × String} {kind : String}
      (hindex : Anthropic.index value = .ok index)
      (htool : m.serverTools.get? index = some tool)
      (htype : string (value.index "delta") "type" = .ok kind)
      (hkind : kind ≠ "input_json_delta") : Maps m .contentBlockDelta value m []
  | blockStart {value : Json} {index : Nat} {kind : String} {block : BlockStart}
      (htype : string (value.index "content_block") "type" = .ok kind)
      (hkind : kind ≠ "server_tool_use")
      (hblock : startOf kind (value.index "content_block") = .ok block)
      (hindex : Anthropic.index value = .ok index) :
      Maps m .contentBlockStart value m [.blockStart index block]
  | delta {value : Json} {index : Nat} {kind : String} {event : Option StreamEvent}
      (hindex : Anthropic.index value = .ok index) (hfree : m.serverTools.get? index = none)
      (htype : string (value.index "delta") "type" = .ok kind)
      (hevent : deltaOf index kind (value.index "delta") = .ok event) :
      Maps m .contentBlockDelta value m event.toList
  | blockStop {value : Json} {index : Nat} (hindex : Anthropic.index value = .ok index)
      (hfree : m.serverTools.get? index = none) :
      Maps m .contentBlockStop value m [.blockStop index]
  | messageStop {value : Json} (hempty : m.serverTools.entries.isEmpty = true) :
      Maps m .messageStop value m [.messageStop]
  | ignored {kind : Kind} {value : Json} (hkind : kind = .ping ∨ kind = .unknown) :
      Maps m kind value m []

end Maps

variable {fromStr : String → Option Json} {key : String} {m m' : Mapper} {value : Json}
  {kind : Kind} {events : List StreamEvent}

/-- A block starts, of a server tool or another. -/
theorem maps_of_contentBlockStart (h : m.contentBlockStart value = .ok (m', events)) :
    Maps fromStr m .contentBlockStart value m' events := by
  obtain ⟨kind, htype, h⟩ := Checks.bind_eq_ok h
  by_cases hserver : kind = "server_tool_use"
  · subst hserver
    rw [if_pos rfl] at h
    obtain ⟨index, hindex, h⟩ := Checks.bind_eq_ok h
    cases htool : m.serverTools.get? index with
    | some tool =>
      rw [htool] at h
      cases h
    | none =>
      rw [htool] at h
      obtain ⟨rfl, rfl⟩ := Prod.mk.inj (Except.ok.inj h)
      exact .toolStart htype hindex htool
  · rw [if_neg hserver] at h
    obtain ⟨block, hblock, h⟩ := Checks.bind_eq_ok h
    obtain ⟨index, hindex, h⟩ := Checks.bind_eq_ok h
    obtain ⟨rfl, rfl⟩ := Prod.mk.inj (Except.ok.inj h)
    exact .blockStart htype hserver hblock hindex

/-- A delta, of a server tool or another block. -/
theorem maps_of_contentBlockDelta (h : m.contentBlockDelta value = .ok (m', events)) :
    Maps fromStr m .contentBlockDelta value m' events := by
  obtain ⟨index, hindex, h⟩ := Checks.bind_eq_ok h
  cases htool : m.serverTools.get? index with
  | some tool =>
    obtain ⟨raw, text⟩ := tool
    rw [htool] at h
    obtain ⟨kind, htype, h⟩ := Checks.bind_eq_ok h
    by_cases hinput : kind = "input_json_delta"
    · subst hinput
      rw [if_pos rfl] at h
      obtain ⟨part, hpart, h⟩ := Checks.bind_eq_ok h
      obtain ⟨rfl, rfl⟩ := Prod.mk.inj (Except.ok.inj h)
      exact .toolInput hindex htool htype hpart
    · rw [if_neg hinput] at h
      obtain ⟨rfl, rfl⟩ := Prod.mk.inj (Except.ok.inj h)
      exact .toolDelta hindex htool htype hinput
  | none =>
    rw [htool] at h
    obtain ⟨kind, htype, h⟩ := Checks.bind_eq_ok h
    obtain ⟨event, hevent, h⟩ := Checks.bind_eq_ok h
    obtain ⟨rfl, rfl⟩ := Prod.mk.inj (Except.ok.inj h)
    exact .delta hindex htool htype hevent

/-- A block stops, of a server tool or another. -/
theorem maps_of_contentBlockStop (h : m.contentBlockStop fromStr value = .ok (m', events)) :
    Maps fromStr m .contentBlockStop value m' events := by
  obtain ⟨index, hindex, h⟩ := Checks.bind_eq_ok h
  cases htool : m.serverTools.get? index with
  | some tool =>
    obtain ⟨raw, text⟩ := tool
    rw [htool] at h
    obtain ⟨raw', hcompleted, h⟩ := Checks.bind_eq_ok h
    obtain ⟨rfl, rfl⟩ := Prod.mk.inj (Except.ok.inj h)
    exact .toolStop hindex htool hcompleted
  | none =>
    rw [htool] at h
    obtain ⟨rfl, rfl⟩ := Prod.mk.inj (Except.ok.inj h)
    exact .blockStop hindex htool

/-- Every accepted event is one of the cases. -/
theorem maps_of_onKind (h : m.onKind fromStr key kind value = .ok (m', events)) :
    Maps fromStr m kind value m' events := by
  cases kind with
  | messageStart => exact .messageStart h
  | messageDelta => exact .messageDelta h
  | contentBlockStart => exact maps_of_contentBlockStart h
  | contentBlockDelta => exact maps_of_contentBlockDelta h
  | contentBlockStop => exact maps_of_contentBlockStop h
  | messageStop =>
    have hstop : m.messageStop = .ok (m', events) := h
    unfold Mapper.messageStop at hstop
    by_cases hempty : m.serverTools.entries.isEmpty = true
    · rw [if_pos hempty] at hstop
      obtain ⟨rfl, rfl⟩ := Prod.mk.inj (Except.ok.inj hstop)
      exact .messageStop hempty
    · rw [if_neg hempty] at hstop
      cases hstop
  | ping =>
    obtain ⟨rfl, rfl⟩ := Prod.mk.inj (Except.ok.inj h)
    exact .ignored (.inl rfl)
  | unknown =>
    obtain ⟨rfl, rfl⟩ := Prod.mk.inj (Except.ok.inj h)
    exact .ignored (.inr rfl)
  | error =>
    obtain ⟨error, -, h⟩ := Checks.bind_eq_ok h
    cases h

/-- Every case is accepted. -/
theorem onKind_of_maps (h : Maps fromStr m kind value m' events) :
    m.onKind fromStr key kind value = .ok (m', events) := by
  cases h with
  | messageStart h => exact h
  | messageDelta h => exact h
  | toolStart htype hindex hfree =>
    show m.contentBlockStart value = _
    unfold Mapper.contentBlockStart
    simp only [htype, hindex, hfree, bind, Except.bind, if_true]
    rfl
  | toolInput hindex htool htype hpart =>
    show m.contentBlockDelta value = _
    unfold Mapper.contentBlockDelta
    simp only [hindex, htool, htype, hpart, bind, Except.bind, if_true]
    rfl
  | toolStop hindex htool hcompleted =>
    show m.contentBlockStop fromStr value = _
    unfold Mapper.contentBlockStop
    simp only [hindex, htool, hcompleted, bind, Except.bind]
    rfl
  | toolDelta hindex htool htype hkind =>
    show m.contentBlockDelta value = _
    unfold Mapper.contentBlockDelta
    simp only [hindex, htool, htype, bind, Except.bind, if_neg hkind]
    rfl
  | blockStart htype hkind hblock hindex =>
    show m.contentBlockStart value = _
    unfold Mapper.contentBlockStart
    simp only [htype, hblock, hindex, bind, Except.bind, if_neg hkind]
    rfl
  | delta hindex hfree htype hevent =>
    show m.contentBlockDelta value = _
    unfold Mapper.contentBlockDelta
    simp only [hindex, hfree, htype, hevent, bind, Except.bind]
    rfl
  | blockStop hindex hfree =>
    show m.contentBlockStop fromStr value = _
    unfold Mapper.contentBlockStop
    simp only [hindex, hfree, bind, Except.bind]
    rfl
  | messageStop hempty => exact if_pos hempty
  | ignored hkind => rcases hkind with rfl | rfl <;> rfl

theorem Maps.start (h : Maps fromStr m .messageStart value m' events) :
    m.messageStart value = .ok (m', events) := by
  cases h with
  | messageStart h => exact h
  | ignored hkind => simp at hkind

theorem Maps.update (h : Maps fromStr m .messageDelta value m' events) :
    m.messageDelta value = .ok (m', events) := by
  cases h with
  | messageDelta h => exact h
  | ignored hkind => simp at hkind

/-- One event of a stream: it is mapped, and the mapped events are pushed. -/
theorem maps_of_feed {s t : State} {event : Sse.Event} (h : s.feed fromStr key event = .ok t) :
    ∃ kind value events, parsed fromStr event = .ok (kind, value) ∧
      Maps fromStr s.mapper kind value t.mapper events ∧
      events.foldlM (Accumulation.Accumulator.push fromStr) s.acc = .ok t.acc := by
  obtain ⟨⟨mapper, events⟩, hmap, h⟩ := Checks.bind_eq_ok h
  obtain ⟨⟨kind, value⟩, hparsed, hkind⟩ := Checks.bind_eq_ok hmap
  obtain ⟨acc, hpush, h⟩ := Checks.bind_eq_ok h
  obtain rfl := Except.ok.inj h
  exact ⟨kind, value, events, hparsed, maps_of_onKind hkind, hpush⟩

theorem feed_of_maps {s : State} {event : Sse.Event} {acc : Accumulation.Accumulator}
    (hparsed : parsed fromStr event = .ok (kind, value))
    (hmaps : Maps fromStr s.mapper kind value m' events)
    (hpush : events.foldlM (Accumulation.Accumulator.push fromStr) s.acc = .ok acc) :
    s.feed fromStr key event = .ok ⟨m', acc⟩ := by
  unfold State.feed Mapper.mapEvent
  simp only [hparsed, onKind_of_maps hmaps, hpush, bind, Except.bind]
  rfl

/-! ### Reports and server tools -/

/-- A report neither reads nor changes the server tools. -/
theorem onUsage_tools {mapped : StreamEvent} {usage : Json}
    (h : m.onUsage mapped usage = .ok (m', events)) (tools : SortedMap Nat (Json × String)) :
    m'.serverTools = m.serverTools ∧
      ({ m with serverTools := tools } : Mapper).onUsage mapped usage =
        .ok ({ m' with serverTools := tools }, events) := by
  obtain ⟨latest, hcounters, h⟩ := Checks.bind_eq_ok h
  obtain ⟨its, hits, h⟩ := Checks.bind_eq_ok h
  unfold Mapper.onUsage
  cases its with
  | none =>
    obtain ⟨rfl, rfl⟩ := Prod.mk.inj (Except.ok.inj h)
    refine ⟨rfl, ?_⟩
    simp only [hcounters, hits, bind, Except.bind]
    rfl
  | some its =>
    obtain ⟨served, hserved, h⟩ := Checks.bind_eq_ok h
    obtain ⟨rfl, rfl⟩ := Prod.mk.inj (Except.ok.inj h)
    have hserve : served.serverTools = m.serverTools ∧
        ({ m with serverTools := tools } : Mapper).serve (serving its) =
          .ok { served with serverTools := tools } := by
      unfold Mapper.serve at hserved ⊢
      cases hserving : serving its with
      | none =>
        rw [hserving] at hserved
        obtain rfl := Except.ok.inj hserved
        exact ⟨rfl, rfl⟩
      | some taker =>
        simp only [hserving] at hserved
        by_cases hempty : taker.model = ""
        · rw [if_pos hempty] at hserved
          cases hserved
        · rw [if_neg hempty] at hserved
          obtain rfl := Except.ok.inj hserved
          exact ⟨rfl, if_neg hempty⟩
    refine ⟨hserve.1, ?_⟩
    simp only [hcounters, hits, hserve.2, bind, Except.bind]
    rfl

theorem messageStart_tools (h : m.messageStart value = .ok (m', events))
    (tools : SortedMap Nat (Json × String)) :
    m'.serverTools = m.serverTools ∧
      ({ m with serverTools := tools } : Mapper).messageStart value =
        .ok ({ m' with serverTools := tools }, events) := by
  obtain ⟨model, hmodel, h⟩ := Checks.bind_eq_ok h
  obtain ⟨usage, hcounters, h⟩ := Checks.bind_eq_ok h
  obtain ⟨hsame, hother⟩ := onUsage_tools h tools
  refine ⟨hsame, ?_⟩
  unfold Mapper.messageStart
  simp only [hmodel, hcounters, bind, Except.bind]
  exact hother

theorem messageDelta_tools (h : m.messageDelta value = .ok (m', events))
    (tools : SortedMap Nat (Json × String)) :
    m'.serverTools = m.serverTools ∧
      ({ m with serverTools := tools } : Mapper).messageDelta value =
        .ok ({ m' with serverTools := tools }, events) := by
  obtain ⟨stopReason, hreason, h⟩ := Checks.bind_eq_ok h
  obtain ⟨usage, hcounters, h⟩ := Checks.bind_eq_ok h
  obtain ⟨hsame, hother⟩ := onUsage_tools h tools
  refine ⟨hsame, ?_⟩
  unfold Mapper.messageDelta
  simp only [hreason, hcounters, bind, Except.bind]
  exact hother

end Kyora.Anthropic
