import Kyora.Anthropic.Steps
import Mathlib.Data.List.Induction

/-! # Events of server tools

  Which events of a stream are of a server tool: its start, and the deltas and
  the stop at its index until it has stopped. They are told apart by the events
  alone, and the mapper keeps what they say of the tools that still run.
-/

namespace Kyora.Anthropic

open Sse (Event)

/-! ### The events of a server tool -/

/-- What an event is to a server tool at its index. -/
inductive ToolEvent where
  | start (index : Nat) (raw : Json)
  /-- A delta, with the part of the input that it brings. -/
  | delta (index : Nat) (part : String)
  | stop (index : Nat)

/-- The part of the input that a delta brings. -/
def inputPart (delta : Json) : String :=
  if (delta.index "type").text? = some "input_json_delta" then
    ((delta.index "partial_json").text?).getD ""
  else ""

def ToolEvent.of? (kind : Kind) (value : Json) : Option ToolEvent :=
  match kind with
  | .contentBlockStart =>
    if ((value.index "content_block").index "type").text? = some "server_tool_use" then
      (value.index "index").natural?.map fun index => .start index (value.index "content_block")
    else none
  | .contentBlockDelta =>
    (value.index "index").natural?.map fun index => .delta index (inputPart (value.index "delta"))
  | .contentBlockStop => (value.index "index").natural?.map .stop
  | _ => none

section Streams

variable (fromStr : String → Option Json)

def toolEvent? (event : Event) : Option ToolEvent :=
  match parsed fromStr event with
  | .ok (kind, value) => ToolEvent.of? kind value
  | .error _ => none

/-- What an event adds to the input of the server tool at an index. -/
def partOf (index : Nat) (event : Event) : String :=
  match toolEvent? fromStr event with
  | some (.delta i part) => if i = index then part else ""
  | _ => ""

/-- The input of the server tool at an index, from the events since its start. -/
def inputOf (index : Nat) (events : List Event) : String :=
  String.join (events.map (partOf fromStr index))

/-- A server tool started at an index and has not stopped, with its block and its input. -/
def Running (events : List Event) (index : Nat) (raw : Json) (text : String) : Prop :=
  ∃ before start since, events = before ++ start :: since ∧
    toolEvent? fromStr start = some (.start index raw) ∧
      (∀ event ∈ since, toolEvent? fromStr event ≠ some (.stop index)) ∧
        inputOf fromStr index since = text

/-- A server tool at an index has stopped, with its block and its input. -/
def Finished (events : List Event) (index : Nat) (raw : Json) (text : String) : Prop :=
  ∃ before stop after, events = before ++ stop :: after ∧
    toolEvent? fromStr stop = some (.stop index) ∧ Running fromStr before index raw text

/-- The indices of the server tools that run, and the events that are not of server tools. -/
structure Sifted where
  running : List Nat
  others : List Event

def Sifted.add (s : Sifted) (event : Event) : Sifted :=
  match toolEvent? fromStr event with
  | some (.start index _) => { s with running := index :: s.running }
  | some (.delta index _) =>
    if index ∈ s.running then s else { s with others := s.others ++ [event] }
  | some (.stop index) =>
    if index ∈ s.running then { s with running := s.running.filter fun i => decide (i ≠ index) }
    else { s with others := s.others ++ [event] }
  | none => { s with others := s.others ++ [event] }

/-- A stream without the events of server tools. -/
def sift (events : List Event) : Sifted := events.foldl (Sifted.add fromStr) ⟨[], []⟩

end Streams

/-! ### One more event -/

variable {fromStr : String → Option Json} {key : String} {events : List Event} {event : Event}
  {index : Nat} {raw : Json} {text : String}

theorem inputOf_concat (index : Nat) (events : List Event) (event : Event) :
    inputOf fromStr index (events ++ [event]) =
      inputOf fromStr index events ++ partOf fromStr index event := by
  unfold inputOf
  rw [List.map_append, List.map_singleton, String.join_append, String.join_cons,
    String.join_nil, String.append_empty]

theorem running_concat :
    Running fromStr (events ++ [event]) index raw text ↔
      (toolEvent? fromStr event = some (.start index raw) ∧ text = "") ∨
        (toolEvent? fromStr event ≠ some (.stop index) ∧
          ∃ before, Running fromStr events index raw before ∧
            text = before ++ partOf fromStr index event) := by
  constructor
  · intro h
    obtain ⟨before, start, since, heq, hstart, hsince, rfl⟩ := h
    rcases List.eq_nil_or_concat since with rfl | ⟨since, last, rfl⟩
    · obtain ⟨rfl, hlast⟩ := List.append_inj' heq rfl
      obtain rfl := List.head_eq_of_cons_eq hlast
      exact .inl ⟨hstart, rfl⟩
    · rw [List.concat_eq_append, ← List.cons_append, ← List.append_assoc] at heq
      obtain ⟨rfl, hlast⟩ := List.append_inj' heq rfl
      obtain rfl := List.head_eq_of_cons_eq hlast
      rw [List.concat_eq_append] at hsince ⊢
      refine .inr ⟨hsince event (by simp), inputOf fromStr index since, ?_, inputOf_concat _ _ _⟩
      exact ⟨before, start, since, rfl, hstart, fun e he => hsince e (by simp [he]), rfl⟩
  · intro h
    rcases h with ⟨hstart, rfl⟩ | ⟨hstop, text', hrunning, rfl⟩
    · exact ⟨events, event, [], rfl, hstart, by simp, rfl⟩
    · obtain ⟨before, start, since, rfl, hstart, hsince, rfl⟩ := hrunning
      refine ⟨before, start, since ++ [event], by simp, hstart, ?_, inputOf_concat _ _ _⟩
      intro e he
      rcases List.mem_append.mp he with he | he
      · exact hsince e he
      · rw [List.mem_singleton.mp he]
        exact hstop

theorem finished_concat :
    Finished fromStr (events ++ [event]) index raw text ↔
      Finished fromStr events index raw text ∨
        (toolEvent? fromStr event = some (.stop index) ∧
          Running fromStr events index raw text) := by
  constructor
  · intro h
    obtain ⟨before, stop, after, heq, hstop, hrunning⟩ := h
    rcases List.eq_nil_or_concat after with rfl | ⟨after, last, rfl⟩
    · obtain ⟨rfl, hlast⟩ := List.append_inj' heq rfl
      obtain rfl := List.head_eq_of_cons_eq hlast
      exact .inr ⟨hstop, hrunning⟩
    · rw [List.concat_eq_append, ← List.cons_append, ← List.append_assoc] at heq
      obtain ⟨rfl, -⟩ := List.append_inj' heq rfl
      exact .inl ⟨before, stop, after, rfl, hstop, hrunning⟩
  · intro h
    rcases h with ⟨before, stop, after, rfl, hstop, hrunning⟩ | ⟨hstop, hrunning⟩
    · exact ⟨before, stop, after ++ [event], by simp, hstop, hrunning⟩
    · exact ⟨events, event, [], rfl, hstop, hrunning⟩

theorem sift_concat (events : List Event) (event : Event) :
    sift fromStr (events ++ [event]) = (sift fromStr events).add fromStr event := by
  unfold sift
  rw [List.foldl_append]
  rfl

/-! ### The server tools that run -/

section Running

variable {i : Nat}

/-- An event that brings no text starts the tool, stops it or leaves it. -/
theorem running_textless (hpart : partOf fromStr i event = "") :
    Running fromStr (events ++ [event]) i raw text ↔
      (toolEvent? fromStr event = some (.start i raw) ∧ text = "") ∨
        (toolEvent? fromStr event ≠ some (.stop i) ∧ Running fromStr events i raw text) := by
  have hkept : (∃ before, Running fromStr events i raw before ∧ text = before ++ "") ↔
      Running fromStr events i raw text := by
    constructor
    · rintro ⟨before, hbefore, rfl⟩
      rw [String.append_empty]
      exact hbefore
    · exact fun hrunning => ⟨text, hrunning, String.append_empty.symm⟩
  rw [running_concat, hpart, hkept]

theorem running_start {raw' : Json} (h : toolEvent? fromStr event = some (.start index raw')) :
    Running fromStr (events ++ [event]) i raw text ↔
      (i = index ∧ raw = raw' ∧ text = "") ∨ Running fromStr events i raw text := by
  have hpart : partOf fromStr i event = "" := by
    unfold partOf
    rw [h]
  rw [running_textless hpart, h]
  constructor
  · intro hrunning
    rcases hrunning with ⟨hstart, rfl⟩ | ⟨-, hbefore⟩
    · obtain ⟨rfl, rfl⟩ := ToolEvent.start.inj (Option.some.inj hstart)
      exact .inl ⟨rfl, rfl, rfl⟩
    · exact .inr hbefore
  · intro hrunning
    rcases hrunning with ⟨rfl, rfl, rfl⟩ | hrunning
    · exact .inl ⟨rfl, rfl⟩
    · exact .inr ⟨by simp, hrunning⟩

theorem running_delta {part : String} (h : toolEvent? fromStr event = some (.delta index part)) :
    Running fromStr (events ++ [event]) i raw text ↔
      ∃ before, Running fromStr events i raw before ∧
        text = before ++ if index = i then part else "" := by
  have hpart : partOf fromStr i event = if index = i then part else "" := by
    unfold partOf
    rw [h]
  rw [running_concat, h, hpart]
  constructor
  · intro hrunning
    rcases hrunning with ⟨hstart, -⟩ | ⟨-, hbefore⟩
    · cases hstart
    · exact hbefore
  · exact fun hbefore => .inr ⟨by simp, hbefore⟩

theorem running_stop (h : toolEvent? fromStr event = some (.stop index)) :
    Running fromStr (events ++ [event]) i raw text ↔
      i ≠ index ∧ Running fromStr events i raw text := by
  have hpart : partOf fromStr i event = "" := by
    unfold partOf
    rw [h]
  have hstop : some (ToolEvent.stop index) ≠ some (.stop i) ↔ i ≠ index := by simp [eq_comm]
  rw [running_textless hpart, h, hstop]
  exact or_iff_right fun hstart => by cases hstart.1

theorem running_none (h : toolEvent? fromStr event = none) :
    Running fromStr (events ++ [event]) i raw text ↔ Running fromStr events i raw text := by
  have hpart : partOf fromStr i event = "" := by
    unfold partOf
    rw [h]
  rw [running_textless hpart, h]
  constructor
  · intro hrunning
    rcases hrunning with ⟨hstart, -⟩ | ⟨-, hbefore⟩
    · cases hstart
    · exact hbefore
  · exact fun hrunning => .inr ⟨by simp, hrunning⟩

end Running

/-! ### What the mapper does with it -/

theorem string_eq_ok {value : Json} {field text : String} :
    string value field = .ok text ↔ (value.index field).text? = some text := by
  unfold string
  cases value.index field with
  | string s =>
    constructor
    · exact fun h => congrArg some (Except.ok.inj h)
    · exact fun h => congrArg Except.ok (Option.some.inj h)
  | _ =>
    constructor
    · intro h
      cases h
    · intro h
      cases h

theorem index_eq_ok {value : Json} :
    Anthropic.index value = .ok index ↔ (value.index "index").natural? = some index := by
  unfold Anthropic.index
  cases (value.index "index").natural? with
  | none =>
    constructor
    · intro h
      cases h
    · intro h
      cases h
  | some i =>
    constructor
    · exact fun h => congrArg some (Except.ok.inj h)
    · exact fun h => congrArg Except.ok (Option.some.inj h)

/-- An event that is not of a server tool of the mapper. -/
def Foreign (m : Mapper) : Option ToolEvent → Prop
  | some (.start _ _) => False
  | some (.delta index _) | some (.stop index) => m.serverTools.get? index = none
  | none => True

/-- An accepted event, by what it is to the server tools. -/
inductive Sorted (fromStr : String → Option Json) (m : Mapper) (kind : Kind) (value : Json)
    (m' : Mapper) (events : List StreamEvent) : Prop
  | start (index : Nat) (raw : Json) (hevent : ToolEvent.of? kind value = some (.start index raw))
      (hfree : m.serverTools.get? index = none)
      (hmapper : m' = { m with serverTools := m.serverTools.insert index (raw, "") })
      (hevents : events = [])
  | delta (index : Nat) (part : String) (raw : Json) (text : String)
      (hevent : ToolEvent.of? kind value = some (.delta index part))
      (htool : m.serverTools.get? index = some (raw, text))
      (hmapper : m' = { m with serverTools := m.serverTools.insert index (raw, text ++ part) })
      (hevents : events = [])
  | stop (index : Nat) (raw raw' : Json) (text : String)
      (hevent : ToolEvent.of? kind value = some (.stop index))
      (htool : m.serverTools.get? index = some (raw, text))
      (hcompleted : completed fromStr raw text = .ok raw')
      (hmapper : m' = { m with serverTools := m.serverTools.erase index })
      (hevents : events =
        [.blockStart index (.opaqueBlock "anthropic" "server_tool_use" raw'), .blockStop index])
  | other (hforeign : Foreign m (ToolEvent.of? kind value))
      (htools : m'.serverTools = m.serverTools)
      (hmaps : Maps fromStr { m with serverTools := .empty } kind value
        { m' with serverTools := .empty } events)

/-- A tool that is replaced by itself. -/
theorem insert_same {m : SortedMap Nat (Json × String)} {tool : Json × String}
    (h : m.get? index = some tool) : m.insert index tool = m := by
  apply SortedMap.ext_get?
  intro i
  rw [SortedMap.get?_insert]
  by_cases hi : i = index
  · rw [if_pos hi, hi, h]
  · rw [if_neg hi]

theorem sorted_of_maps {m m' : Mapper} {kind : Kind} {value : Json} {mapped : List StreamEvent}
    (h : Maps fromStr m kind value m' mapped) : Sorted fromStr m kind value m' mapped := by
  cases h with
  | messageStart h =>
    obtain ⟨htools, hother⟩ := messageStart_tools h .empty
    exact .other trivial htools (.messageStart hother)
  | messageDelta h =>
    obtain ⟨htools, hother⟩ := messageDelta_tools h .empty
    exact .other trivial htools (.messageDelta hother)
  | toolStart htype hindex hfree =>
    refine .start _ _ ?_ hfree rfl rfl
    simp only [ToolEvent.of?, string_eq_ok.mp htype, if_true, index_eq_ok.mp hindex,
      Option.map_some]
  | toolInput hindex htool htype hpart =>
    refine .delta _ _ _ _ ?_ htool rfl rfl
    simp only [ToolEvent.of?, inputPart, string_eq_ok.mp htype, if_true, string_eq_ok.mp hpart,
      index_eq_ok.mp hindex, Option.map_some, Option.getD_some]
  | toolDelta hindex htool htype hkind =>
    refine .delta _ "" _ _ ?_ htool ?_ rfl
    · have hne : ¬((value.index "delta").index "type").text? = some "input_json_delta" := by
        rw [string_eq_ok.mp htype]
        exact fun heq => hkind (Option.some.inj heq)
      simp only [ToolEvent.of?, inputPart, if_neg hne, index_eq_ok.mp hindex, Option.map_some]
    · rw [String.append_empty, insert_same htool]
  | toolStop hindex htool hcompleted =>
    refine .stop _ _ _ _ ?_ htool hcompleted rfl rfl
    simp only [ToolEvent.of?, index_eq_ok.mp hindex, Option.map_some]
  | blockStart htype hkind hblock hindex =>
    refine .other ?_ rfl (.blockStart htype hkind hblock hindex)
    have hne : ¬((value.index "content_block").index "type").text? = some "server_tool_use" := by
      rw [string_eq_ok.mp htype]
      exact fun heq => hkind (Option.some.inj heq)
    simp only [ToolEvent.of?, if_neg hne]
    trivial
  | delta hindex hfree htype hevent =>
    refine .other ?_ rfl (.delta hindex rfl htype hevent)
    simp only [ToolEvent.of?, index_eq_ok.mp hindex, Option.map_some]
    exact hfree
  | blockStop hindex hfree =>
    refine .other ?_ rfl (.blockStop hindex rfl)
    simp only [ToolEvent.of?, index_eq_ok.mp hindex, Option.map_some]
    exact hfree
  | messageStop hempty => exact .other trivial rfl (.messageStop rfl)
  | ignored hkind =>
    refine .other ?_ rfl (.ignored hkind)
    rcases hkind with rfl | rfl <;> trivial

end Kyora.Anthropic
