import Kyora.Accumulation.Pushes
import Kyora.Anthropic.ToolEvents

/-! # Blocks of server tools

  A server tool's block is withheld from its start to its stop, while the events
  of other blocks go through. The accumulated content is that of the stream
  without the events of server tools, and the blocks of those that stopped.
-/

namespace Kyora.Anthropic

open Accumulation (Accumulator PendingBlock Without)
open Sse (Event)

variable {fromStr : String → Option Json} {key : String} {events : List Event} {event : Event}
  {index : Nat} {raw : Json} {text : String}

/-- The block of a server tool that stopped. -/
def toolBlock (raw : Json) : PendingBlock :=
  ⟨.opaqueBlock "anthropic" "server_tool_use" raw, "", true⟩

/-- A server tool's block is started and stopped at once. -/
theorem pushes_toolBlock {acc acc' : Accumulator}
    (h : [StreamEvent.blockStart index (.opaqueBlock "anthropic" "server_tool_use" raw),
      .blockStop index].foldlM (Accumulator.push fromStr) acc = .ok acc') :
    acc.blocks.get? index = none ∧ acc' = { acc with blocks := acc'.blocks } ∧
      ∀ i, acc'.blocks.get? i = if i = index then some (toolBlock raw) else acc.blocks.get? i := by
  obtain ⟨mid, hstart, h⟩ := Checks.foldlM_cons_ok.mp h
  obtain ⟨last, hstop, hnil⟩ := Checks.foldlM_cons_ok.mp h
  obtain rfl := Except.ok.inj hnil
  obtain ⟨-, hstart⟩ := Accumulation.push_eq_ok.mp hstart
  obtain ⟨-, hstop⟩ := Accumulation.push_eq_ok.mp hstop
  cases hstart with
  | refers _ hrefers => cases hrefers
  | blockStart _ _ hheader hfresh =>
    cases hstop with
    | @refers _ i b r hheader' hrefers hget hopen htouch =>
      obtain rfl := Option.some.inj hrefers
      have hblock : b = ⟨.opaqueBlock "anthropic" "server_tool_use" raw, "", false⟩ := by
        rw [SortedMap.get?_insert, if_pos rfl] at hget
        exact (Option.some.inj hget).symm
      subst hblock
      obtain rfl := Option.some.inj htouch
      refine ⟨hfresh, rfl, fun j => ?_⟩
      show ((acc.blocks.insert index _).modify index _).get? j = _
      rw [SortedMap.get?_modify, SortedMap.get?_insert]
      by_cases hj : j = index
      · rw [if_pos hj, if_pos hj, if_pos hj]
        rfl
      · rw [if_neg hj, if_neg hj, if_neg hj]

/-- What the mapper and the accumulator hold of the server tools of the events so far. -/
structure Tracks (fromStr : String → Option Json) (events : List Event) (s : State) : Prop where
  tools : ∀ i raw text, s.mapper.serverTools.get? i = some (raw, text) ↔
    Running fromStr events i raw text
  running : ∀ i, i ∈ (sift fromStr events).running ↔ (s.mapper.serverTools.get? i).isSome
  finished : ∀ i raw text, Finished fromStr events i raw text →
    ∃ raw', completed fromStr raw text = .ok raw' ∧ s.acc.blocks.get? i = some (toolBlock raw')

theorem tracks_new : Tracks fromStr [] State.new where
  tools i raw text := by
    constructor
    · intro h
      cases h
    · intro h
      obtain ⟨before, start, since, heq, -⟩ := h
      simp at heq
  running i := by
    constructor
    · intro h
      cases h
    · intro h
      cases h
  finished i raw text h := by
    obtain ⟨before, stop, after, heq, -⟩ := h
    simp at heq

section Feed

variable {s t : State}

theorem Tracks.not_running (h : Tracks fromStr events s)
    (hfree : s.mapper.serverTools.get? index = none) : ¬Running fromStr events index raw text := by
  intro hrunning
  rw [(h.tools index raw text).mpr hrunning] at hfree
  cases hfree

/-- An event that is not of a running server tool changes none. -/
theorem Tracks.foreign (h : Tracks fromStr events s)
    (hforeign : Foreign s.mapper (toolEvent? fromStr event)) :
    (∀ i raw text, Running fromStr (events ++ [event]) i raw text ↔
        Running fromStr events i raw text) ∧
      (∀ i raw text, Finished fromStr (events ++ [event]) i raw text ↔
        Finished fromStr events i raw text) ∧
      sift fromStr (events ++ [event]) =
        ⟨(sift fromStr events).running, (sift fromStr events).others ++ [event]⟩ := by
  have hmem : ∀ {index}, s.mapper.serverTools.get? index = none →
      index ∉ (sift fromStr events).running := by
    intro index hfree hmem
    have hsome := (h.running index).mp hmem
    rw [hfree] at hsome
    cases hsome
  rw [sift_concat]
  unfold Sifted.add
  cases hevent : toolEvent? fromStr event with
  | none =>
    refine ⟨fun i raw text => running_none hevent, fun i raw text => ?_, rfl⟩
    rw [finished_concat, hevent]
    exact ⟨fun hfinished => hfinished.resolve_right (by simp), .inl⟩
  | some te =>
    rw [hevent] at hforeign
    cases te with
    | start i raw => exact hforeign.elim
    | delta index part =>
      refine ⟨fun i raw text => ?_, fun i raw text => ?_, if_neg (hmem hforeign)⟩
      · rw [running_delta hevent]
        constructor
        · intro hbefore
          obtain ⟨before, hrunning, rfl⟩ := hbefore
          have hne : index ≠ i := fun heq => h.not_running hforeign (heq ▸ hrunning)
          rw [if_neg hne, String.append_empty]
          exact hrunning
        · intro hrunning
          have hne : index ≠ i := fun heq => h.not_running hforeign (heq ▸ hrunning)
          rw [if_neg hne]
          exact ⟨text, hrunning, (String.append_empty).symm⟩
      · rw [finished_concat, hevent]
        exact ⟨fun hfinished => hfinished.resolve_right (by simp), .inl⟩
    | stop index =>
      refine ⟨fun i raw text => ?_, fun i raw text => ?_, if_neg (hmem hforeign)⟩
      · rw [running_stop hevent]
        refine ⟨And.right, fun hrunning => ⟨fun heq => ?_, hrunning⟩⟩
        exact h.not_running hforeign (heq ▸ hrunning)
      · rw [finished_concat, hevent]
        refine ⟨fun hfinished => hfinished.resolve_right ?_, .inl⟩
        intro hstop
        obtain ⟨heq, hrunning⟩ := hstop
        obtain rfl := ToolEvent.stop.inj (Option.some.inj heq)
        exact h.not_running hforeign hrunning

/-- One event: sorted, with its mapped events pushed. -/
theorem sorted_of_feed (h : s.feed fromStr key event = .ok t) :
    ∃ kind value mapped, parsed fromStr event = .ok (kind, value) ∧
      toolEvent? fromStr event = ToolEvent.of? kind value ∧
        Sorted fromStr s.mapper kind value t.mapper mapped ∧
          mapped.foldlM (Accumulator.push fromStr) s.acc = .ok t.acc := by
  obtain ⟨kind, value, mapped, hparsed, hmaps, hpush⟩ := maps_of_feed h
  refine ⟨kind, value, mapped, hparsed, ?_, sorted_of_maps hmaps, hpush⟩
  unfold toolEvent?
  rw [hparsed]

theorem Tracks.start (h : Tracks fromStr events s)
    (hevent : toolEvent? fromStr event = some (.start index raw))
    (hfree : s.mapper.serverTools.get? index = none)
    (htools : t.mapper.serverTools = s.mapper.serverTools.insert index (raw, ""))
    (hacc : t.acc = s.acc) : Tracks fromStr (events ++ [event]) t := by
  constructor
  · intro i raw' text
    rw [htools, SortedMap.get?_insert, running_start hevent, ← h.tools]
    by_cases hi : i = index
    · rw [if_pos hi, hi, hfree]
      constructor
      · intro heq
        obtain ⟨rfl, rfl⟩ := Prod.mk.inj (Option.some.inj heq)
        exact .inl ⟨rfl, rfl, rfl⟩
      · intro hnew
        rcases hnew with ⟨-, rfl, rfl⟩ | hnone
        · rfl
        · cases hnone
    · rw [if_neg hi]
      exact ⟨.inr, fun hnew => hnew.resolve_left fun hsame => hi hsame.1⟩
  · intro i
    rw [sift_concat]
    unfold Sifted.add
    rw [hevent, htools, SortedMap.get?_insert]
    show i ∈ index :: (sift fromStr events).running ↔ _
    rw [List.mem_cons, h.running]
    by_cases hi : i = index
    · simp [hi]
    · simp [hi]
  · intro i raw' text hfinished
    rw [finished_concat, hevent] at hfinished
    rw [hacc]
    exact h.finished i raw' text (hfinished.resolve_right (by simp))

theorem Tracks.delta {part : String} (h : Tracks fromStr events s)
    (hevent : toolEvent? fromStr event = some (.delta index part))
    (htool : s.mapper.serverTools.get? index = some (raw, text))
    (htools : t.mapper.serverTools = s.mapper.serverTools.insert index (raw, text ++ part))
    (hacc : t.acc = s.acc) : Tracks fromStr (events ++ [event]) t := by
  constructor
  · intro i raw' text'
    rw [htools, SortedMap.get?_insert, running_delta hevent]
    by_cases hi : i = index
    · rw [if_pos hi, hi, if_pos rfl]
      constructor
      · intro heq
        obtain ⟨rfl, rfl⟩ := Prod.mk.inj (Option.some.inj heq)
        exact ⟨text, (h.tools index raw text).mp htool, rfl⟩
      · intro hbefore
        obtain ⟨before, hrunning, rfl⟩ := hbefore
        have hsame := htool.symm.trans ((h.tools index raw' before).mpr hrunning)
        obtain ⟨rfl, rfl⟩ := Prod.mk.inj (Option.some.inj hsame)
        rfl
    · rw [if_neg hi, if_neg (Ne.symm hi), h.tools]
      constructor
      · exact fun hrunning => ⟨text', hrunning, (String.append_empty).symm⟩
      · intro hbefore
        obtain ⟨before, hrunning, rfl⟩ := hbefore
        rw [String.append_empty]
        exact hrunning
  · intro i
    have hmem : index ∈ (sift fromStr events).running := by
      rw [h.running, htool]
      rfl
    rw [sift_concat]
    unfold Sifted.add
    rw [hevent, htools, SortedMap.get?_insert]
    dsimp only
    rw [if_pos hmem, h.running]
    by_cases hi : i = index
    · rw [if_pos hi, hi, htool]
      rfl
    · rw [if_neg hi]
  · intro i raw' text' hfinished
    rw [finished_concat, hevent] at hfinished
    rw [hacc]
    exact h.finished i raw' text' (hfinished.resolve_right (by simp))

theorem Tracks.stop {raw' : Json} (h : Tracks fromStr events s)
    (hevent : toolEvent? fromStr event = some (.stop index))
    (htool : s.mapper.serverTools.get? index = some (raw, text))
    (hcompleted : completed fromStr raw text = .ok raw')
    (htools : t.mapper.serverTools = s.mapper.serverTools.erase index)
    (hfresh : s.acc.blocks.get? index = none)
    (hblocks : ∀ i, t.acc.blocks.get? i =
      if i = index then some (toolBlock raw') else s.acc.blocks.get? i) :
    Tracks fromStr (events ++ [event]) t := by
  constructor
  · intro i raw'' text'
    rw [htools, SortedMap.get?_erase, running_stop hevent]
    by_cases hi : i = index
    · rw [if_pos hi]
      exact iff_of_false (by simp) (fun hrunning => hrunning.1 hi)
    · rw [if_neg hi, h.tools]
      exact ⟨fun hrunning => ⟨hi, hrunning⟩, And.right⟩
  · intro i
    have hmem : index ∈ (sift fromStr events).running := by
      rw [h.running, htool]
      rfl
    rw [sift_concat]
    unfold Sifted.add
    rw [hevent, htools, SortedMap.get?_erase]
    dsimp only
    rw [if_pos hmem, List.mem_filter, h.running]
    by_cases hi : i = index
    · simp [hi]
    · simp [hi]
  · intro i raw'' text' hfinished
    rcases finished_concat.mp hfinished with hfinished | ⟨heq, hrunning⟩
    · obtain ⟨block, hblock, hget⟩ := h.finished i raw'' text' hfinished
      have hne : i ≠ index := fun heq => by
        rw [heq, hfresh] at hget
        cases hget
      exact ⟨block, hblock, by rw [hblocks, if_neg hne]; exact hget⟩
    · obtain rfl := ToolEvent.stop.inj (Option.some.inj (hevent.symm.trans heq))
      have hsame := htool.symm.trans ((h.tools index raw'' text').mpr hrunning)
      obtain ⟨rfl, rfl⟩ := Prod.mk.inj (Option.some.inj hsame)
      exact ⟨raw', hcompleted, by rw [hblocks, if_pos rfl]⟩

theorem Tracks.other {mapped : List StreamEvent} (h : Tracks fromStr events s)
    (hforeign : Foreign s.mapper (toolEvent? fromStr event))
    (htools : t.mapper.serverTools = s.mapper.serverTools)
    (hpush : mapped.foldlM (Accumulator.push fromStr) s.acc = .ok t.acc) :
    Tracks fromStr (events ++ [event]) t := by
  obtain ⟨hrunning, hfinished, hsift⟩ := h.foreign hforeign
  constructor
  · intro i raw text
    rw [htools, hrunning, h.tools]
  · intro i
    rw [htools, hsift]
    exact h.running i
  · intro i raw text hdone
    obtain ⟨raw', hcompleted, hget⟩ := h.finished i raw text ((hfinished i raw text).mp hdone)
    exact ⟨raw', hcompleted, Accumulation.pushes_closed hpush hget rfl⟩

/-- One event of a stream. -/
theorem Tracks.feed (h : Tracks fromStr events s) (hfeed : s.feed fromStr key event = .ok t) :
    Tracks fromStr (events ++ [event]) t := by
  obtain ⟨kind, value, mapped, -, htool, hsorted, hpush⟩ := sorted_of_feed hfeed
  cases hsorted with
  | start index raw hevent hfree hmapper hevents =>
    rw [hevents] at hpush
    exact h.start (htool.trans hevent) hfree (by rw [hmapper]) (Except.ok.inj hpush).symm
  | delta index part raw text hevent hget hmapper hevents =>
    rw [hevents] at hpush
    exact h.delta (htool.trans hevent) hget (by rw [hmapper]) (Except.ok.inj hpush).symm
  | stop index raw raw' text hevent hget hcompleted hmapper hevents =>
    rw [hevents] at hpush
    obtain ⟨hfresh, -, hblocks⟩ := pushes_toolBlock hpush
    exact h.stop (htool.trans hevent) hget hcompleted (by rw [hmapper]) hfresh hblocks
  | other hforeign htools =>
    rw [← htool] at hforeign
    exact h.other hforeign htools hpush

theorem tracks_of_run (hrun : State.run fromStr key events = .ok s) : Tracks fromStr events s := by
  induction events using List.reverseRecOn generalizing s with
  | nil =>
    obtain rfl := Except.ok.inj hrun
    exact tracks_new
  | append_singleton events event ih =>
    obtain ⟨mid, hevents, hfeed⟩ := Checks.foldlM_concat_ok.mp hrun
    exact (ih hevents).feed hfeed

/-! ### The stream without server tools -/

/-- A server tool at an index has stopped. -/
def FinishedAt (fromStr : String → Option Json) (events : List Event) (index : Nat) : Prop :=
  ∃ raw text, Finished fromStr events index raw text

/-- The events of other blocks give everything but the blocks of server tools. -/
def Sifts (fromStr : String → Option Json) (key : String) (events : List Event) (s : State) :
    Prop :=
  ∃ rest, State.run fromStr key (sift fromStr events).others =
      .ok ⟨{ s.mapper with serverTools := .empty }, { s.acc with blocks := rest }⟩ ∧
    Without (FinishedAt fromStr events) s.acc.blocks rest

theorem finishedAt_concat :
    FinishedAt fromStr (events ++ [event]) index ↔
      FinishedAt fromStr events index ∨ (toolEvent? fromStr event = some (.stop index) ∧
        ∃ raw text, Running fromStr events index raw text) := by
  unfold FinishedAt
  simp only [finished_concat, exists_or, exists_and_left]

/-- A start or a part of a server tool's input leaves the other events as they are. -/
theorem Sifts.silent (h : Sifts fromStr key events s)
    (hnot : ∀ i, toolEvent? fromStr event ≠ some (.stop i))
    (hothers : (sift fromStr (events ++ [event])).others = (sift fromStr events).others)
    (hmapper : ({ t.mapper with serverTools := .empty } : Mapper) =
      { s.mapper with serverTools := .empty })
    (hacc : t.acc = s.acc) : Sifts fromStr key (events ++ [event]) t := by
  obtain ⟨rest, hrun, hwithout⟩ := h
  refine ⟨rest, ?_, ?_⟩
  · rw [hothers, hmapper, hacc]
    exact hrun
  · rw [hacc]
    refine hwithout.congr fun i => ?_
    rw [finishedAt_concat]
    exact ⟨fun hor => hor.resolve_right fun hstop => hnot i hstop.1, .inl⟩

/-- The block of a server tool that stops is not among the others. -/
theorem Sifts.stop {raw' : Json} (h : Sifts fromStr key events s)
    (htracks : Tracks fromStr events s)
    (hevent : toolEvent? fromStr event = some (.stop index))
    (htool : s.mapper.serverTools.get? index = some (raw, text))
    (hmapper : t.mapper = { s.mapper with serverTools := s.mapper.serverTools.erase index })
    (hfresh : s.acc.blocks.get? index = none)
    (hacc : t.acc = { s.acc with blocks := t.acc.blocks })
    (hblocks : ∀ i, t.acc.blocks.get? i =
      if i = index then some (toolBlock raw') else s.acc.blocks.get? i) :
    Sifts fromStr key (events ++ [event]) t := by
  obtain ⟨rest, hrun, hwithout⟩ := h
  have hmem : index ∈ (sift fromStr events).running := by
    rw [htracks.running, htool]
    rfl
  have hothers : (sift fromStr (events ++ [event])).others = (sift fromStr events).others := by
    rw [sift_concat]
    unfold Sifted.add
    rw [hevent]
    dsimp only
    rw [if_pos hmem]
  refine ⟨rest, ?_, ?_⟩
  · rw [hothers, hmapper, hacc]
    exact hrun
  · have hfinished : ∀ i, FinishedAt fromStr (events ++ [event]) i ↔
        FinishedAt fromStr events i ∨ i = index := by
      intro i
      rw [finishedAt_concat, hevent]
      refine or_congr_right ⟨fun hstop => ?_, fun heq => ?_⟩
      · exact (ToolEvent.stop.inj (Option.some.inj hstop.1)).symm
      · subst heq
        exact ⟨rfl, raw, text, (htracks.tools i raw text).mp htool⟩
    constructor
    · intro i hi
      obtain ⟨hnot, hne⟩ := not_or.mp fun hor => hi ((hfinished i).mpr hor)
      rw [hblocks, if_neg hne]
      exact hwithout.kept i hnot
    · intro i hi
      rcases (hfinished i).mp hi with hdone | rfl
      · exact hwithout.gone i hdone
      · by_cases hdone : FinishedAt fromStr events i
        · exact hwithout.gone i hdone
        · exact (hwithout.kept i hdone).trans hfresh
    · intro i hi
      rw [hblocks]
      by_cases heq : i = index
      · rw [if_pos heq]
        exact ⟨toolBlock raw', rfl, rfl⟩
      · rw [if_neg heq]
        exact hwithout.closed i (((hfinished i).mp hi).resolve_right heq)

/-- Any other event does to the others what it does to the whole. -/
theorem Sifts.other {kind : Kind} {value : Json} {mapped : List StreamEvent}
    (h : Sifts fromStr key events s) (htracks : Tracks fromStr events s)
    (hparsed : parsed fromStr event = .ok (kind, value))
    (hforeign : Foreign s.mapper (toolEvent? fromStr event))
    (hmaps : Maps fromStr { s.mapper with serverTools := .empty } kind value
      { t.mapper with serverTools := .empty } mapped)
    (hpush : mapped.foldlM (Accumulator.push fromStr) s.acc = .ok t.acc) :
    Sifts fromStr key (events ++ [event]) t := by
  obtain ⟨rest, hrun, hwithout⟩ := h
  obtain ⟨-, hfinished, hsift⟩ := htracks.foreign hforeign
  obtain ⟨rest', hpush', hwithout'⟩ := hwithout.pushes hpush
  refine ⟨rest', ?_, ?_⟩
  · rw [hsift]
    refine Checks.foldlM_concat_ok.mpr ⟨_, hrun, ?_⟩
    exact feed_of_maps hparsed hmaps hpush'
  · refine hwithout'.congr fun i => ?_
    unfold FinishedAt
    simp only [hfinished]

theorem sifts_of_run (hrun : State.run fromStr key events = .ok s) :
    Sifts fromStr key events s := by
  induction events using List.reverseRecOn generalizing s with
  | nil =>
    obtain rfl := Except.ok.inj hrun
    refine ⟨.empty, rfl, fun _ _ => rfl, fun _ _ => rfl, fun i hi => ?_⟩
    obtain ⟨raw, text, before, stop, after, heq, -⟩ := hi
    simp at heq
  | append_singleton events event ih =>
    obtain ⟨mid, hevents, hfeed⟩ := Checks.foldlM_concat_ok.mp hrun
    have htracks := tracks_of_run hevents
    have hsifts := ih hevents
    obtain ⟨kind, value, mapped, hparsed, htool, hsorted, hpush⟩ := sorted_of_feed hfeed
    cases hsorted with
    | start index raw hevent hfree hmapper hnil =>
      rw [hnil] at hpush
      have hstart := htool.trans hevent
      refine hsifts.silent (fun i => by simp [hstart]) ?_ (by rw [hmapper])
        (Except.ok.inj hpush).symm
      rw [sift_concat]
      unfold Sifted.add
      rw [hstart]
    | delta index part raw text hevent hget hmapper hnil =>
      rw [hnil] at hpush
      have hdelta := htool.trans hevent
      refine hsifts.silent (fun i => by simp [hdelta]) ?_ (by rw [hmapper])
        (Except.ok.inj hpush).symm
      have hmem : index ∈ (sift fromStr events).running := by
        rw [htracks.running, hget]
        rfl
      rw [sift_concat]
      unfold Sifted.add
      rw [hdelta]
      dsimp only
      rw [if_pos hmem]
    | stop index raw raw' text hevent hget hcompleted hmapper hpair =>
      rw [hpair] at hpush
      obtain ⟨hfresh, hacc, hblocks⟩ := pushes_toolBlock hpush
      exact hsifts.stop htracks (htool.trans hevent) hget hmapper hfresh hacc hblocks
    | other hforeign htools hmaps =>
      rw [← htool] at hforeign
      exact hsifts.other htracks hparsed hforeign hmaps hpush

/-! ### Blocks of server tools -/

/-- The block that a server tool leaves: its input is the parsed text, unless that is empty. -/
def Replaced (fromStr : String → Option Json) (raw : Json) (text : String) (raw' : Json) : Prop :=
  (text = "" ∧ raw' = raw) ∨ ∃ input, text ≠ "" ∧ fromStr text = some input ∧
    raw'.index "input" = input ∧ ∀ field, field ≠ "input" → raw'.index field = raw.index field

theorem replaced_of_completed {raw' : Json} (htype : (raw.index "type").text?.isSome)
    (h : completed fromStr raw text = .ok raw') : Replaced fromStr raw text raw' := by
  unfold completed at h
  by_cases hempty : text = ""
  · rw [if_pos hempty] at h
    exact .inl ⟨hempty, (Except.ok.inj h).symm⟩
  · rw [if_neg hempty] at h
    cases hparse : fromStr text with
    | none =>
      rw [hparse] at h
      cases h
    | some input =>
      rw [hparse] at h
      obtain rfl := Except.ok.inj h
      cases raw with
      | object members =>
        have hset : ∀ field, (Json.set (.object members) "input" input).index field =
            ((if field = "input" then some input else members.lookup field).getD .null) := by
          intro field
          exact congrArg (fun inner => inner.getD Json.null)
            (SortedMap.lookup_insertEntry "input" input members field)
        refine .inr ⟨input, hempty, hparse, ?_, fun field hfield => ?_⟩
        · rw [hset, if_pos rfl]
          rfl
        · rw [hset, if_neg hfield]
          rfl
      | _ => cases htype

/-- The start of a server tool has a block with a type. -/
theorem type_of_running (h : Running fromStr events index raw text) :
    (raw.index "type").text?.isSome := by
  obtain ⟨before, start, since, -, hstart, -⟩ := h
  unfold toolEvent? at hstart
  cases hparsed : parsed fromStr start with
  | error error =>
    rw [hparsed] at hstart
    cases hstart
  | ok pair =>
    rw [hparsed] at hstart
    cases hkind : pair.1 with
    | contentBlockStart =>
      simp only [ToolEvent.of?, hkind] at hstart
      split at hstart
      · next htype =>
        obtain ⟨i, -, heq⟩ := Option.map_eq_some_iff.mp hstart
        obtain ⟨-, rfl⟩ := ToolEvent.start.inj heq
        rw [htype]
        rfl
      · cases hstart
    | contentBlockDelta => simp [ToolEvent.of?, hkind] at hstart
    | contentBlockStop => simp [ToolEvent.of?, hkind] at hstart
    | _ => simp [ToolEvent.of?, hkind] at hstart

/-- The end of a message waits for its server tools. -/
theorem Tracks.stop_rejected (h : Tracks fromStr events s) {value : Json}
    (hparsed : parsed fromStr event = .ok (.messageStop, value))
    (hrunning : Running fromStr events index raw text) :
    s.feed fromStr key event = .error (malformed "open server tool block") := by
  have hopen : ¬s.mapper.serverTools.entries.isEmpty = true := by
    intro hempty
    have hnone : s.mapper.serverTools.get? index = none := by
      unfold SortedMap.get?
      rw [List.isEmpty_iff.mp hempty]
      rfl
    exact h.not_running hnone hrunning
  have hkind : s.mapper.onKind fromStr key .messageStop value =
      .error (malformed "open server tool block") := if_neg hopen
  unfold State.feed Mapper.mapEvent
  simp only [hparsed, hkind, bind, Except.bind]

/-- A delta of a server tool does not get to the accumulator. -/
theorem Tracks.delta_withheld (h : Tracks fromStr events s) {part : String}
    (hfeed : s.feed fromStr key event = .ok t)
    (hrunning : Running fromStr events index raw text)
    (hdelta : toolEvent? fromStr event = some (.delta index part)) : t.acc = s.acc := by
  obtain ⟨kind, value, mapped, -, htool, hsorted, hpush⟩ := sorted_of_feed hfeed
  have hof := htool.symm.trans hdelta
  cases hsorted with
  | start i raw' hevent =>
    rw [hof] at hevent
    cases hevent
  | delta i part' raw' text' hevent hget hmapper hnil =>
    rw [hnil] at hpush
    exact (Except.ok.inj hpush).symm
  | stop i raw' raw'' text' hevent =>
    rw [hof] at hevent
    cases hevent
  | other hforeign =>
    rw [hof] at hforeign
    exact absurd hrunning (h.not_running hforeign)

end Feed

/-- What becomes of server tools in a stream that ends in a state. -/
structure ServerToolsKept (fromStr : String → Option Json) (key : String) (events : List Event)
    (s : State) : Prop where
  /-- A server tool that stopped is at its index. -/
  block : ∀ index raw text, Finished fromStr events index raw text → ∃ raw',
    Replaced fromStr raw text raw' ∧ s.acc.blocks.get? index =
      some ⟨.opaqueBlock "anthropic" "server_tool_use" raw', "", true⟩
  /-- Everything else is that of the stream without the events of server tools. -/
  others : ∃ t, State.run fromStr key (sift fromStr events).others = .ok t ∧
    t.acc = { s.acc with blocks := t.acc.blocks } ∧
      ∀ index, (FinishedAt fromStr events index → t.acc.blocks.get? index = none) ∧
        (¬FinishedAt fromStr events index →
          t.acc.blocks.get? index = s.acc.blocks.get? index)
  stop : ∀ event value index raw text, parsed fromStr event = .ok (.messageStop, value) →
    Running fromStr events index raw text →
      s.feed fromStr key event = .error (malformed "open server tool block")
  delta : ∀ before event after t t' index raw text part, events = before ++ event :: after →
    State.run fromStr key before = .ok t → t.feed fromStr key event = .ok t' →
      Running fromStr before index raw text →
        toolEvent? fromStr event = some (.delta index part) → t'.acc = t.acc

/-- In every accepted stream the server tools that stopped are at their indices, and all
    else is as if their events had not been there. -/
theorem server_tools_kept {s : State} (hrun : State.run fromStr key events = .ok s) :
    ServerToolsKept fromStr key events s := by
  have htracks := tracks_of_run hrun
  constructor
  · intro index raw text hfinished
    obtain ⟨raw', hcompleted, hget⟩ := htracks.finished index raw text hfinished
    obtain ⟨before, stop, after, -, -, hrunning⟩ := hfinished
    exact ⟨raw', replaced_of_completed (type_of_running hrunning) hcompleted, hget⟩
  · obtain ⟨rest, hothers, hwithout⟩ := sifts_of_run hrun
    exact ⟨_, hothers, rfl, fun index => ⟨hwithout.gone index, hwithout.kept index⟩⟩
  · intro event value index raw text hparsed hrunning
    exact htracks.stop_rejected hparsed hrunning
  · intro before event after t t' index raw text part _ hbefore hfeed hrunning hdelta
    exact (tracks_of_run hbefore).delta_withheld hfeed hrunning hdelta

/-- A server tool between the start and the text of another block. -/
def interleavedSample : Sample :=
  [startSample,
    ("content_block_start",
      "\x7b\"content_block\":\x7b\"type\":\"text\"\x7d,\"index\":1\x7d",
      .object [("content_block", .object [("type", .string "text")]), ("index", .integer 1)]),
    ("content_block_start",
      "\x7b\"content_block\":\x7b\"type\":\"server_tool_use\"\x7d,\"index\":0\x7d",
      .object [("content_block", .object [("type", .string "server_tool_use")]),
        ("index", .integer 0)]),
    ("content_block_delta",
      "\x7b\"delta\":\x7b\"text\":\"t\",\"type\":\"text_delta\"\x7d,\"index\":1\x7d",
      .object [("delta", .object [("text", .string "t"), ("type", .string "text_delta")]),
        ("index", .integer 1)]),
    ("content_block_delta",
      "\x7b\"delta\":\x7b\"partial_json\":\"[1]\",\"type\":\"input_json_delta\"\x7d," ++
        "\"index\":0\x7d",
      .object [("delta", .object [("partial_json", .string "[1]"),
        ("type", .string "input_json_delta")]), ("index", .integer 0)]),
    ("content_block_stop", "\x7b\"index\":0\x7d", .object [("index", .integer 0)])]

/-- Parses the data of those events, and the input of the server tool. -/
def interleavedFromStr (text : String) : Option Json :=
  if text = "[1]" then some (.array [.integer 1]) else interleavedSample.fromStr text

theorem server_tools_kept_interleaved : ∃ s,
    State.run interleavedFromStr "" interleavedSample.events = .ok s ∧
      s.acc.blocks.keys = [0, 1] ∧
        ServerToolsKept interleavedFromStr "" interleavedSample.events s := by
  have hrun : (State.run interleavedFromStr "" interleavedSample.events).toOption.map
      (fun s => s.acc.blocks.keys) = some [0, 1] := by decide +kernel
  obtain ⟨s, hs, hkeys⟩ := Option.map_eq_some_iff.mp hrun
  have hok := Checks.eq_ok_of_toOption hs
  exact ⟨s, hok, hkeys, server_tools_kept hok⟩

end Kyora.Anthropic
