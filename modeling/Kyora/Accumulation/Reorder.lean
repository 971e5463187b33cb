import Kyora.Accumulation.Result

/-! # Events in another order

  A block is described by the events of its index, the message by the events
  without one. So what matters of the order is the order within each index, the
  order among the message's own events, and that the message starts first and
  stops last.
-/

namespace Kyora.Accumulation

variable {fromStr : String → Option Json}

/-- The events of an index. -/
def ofIndex (events : List StreamEvent) (index : Nat) : List StreamEvent :=
  events.filter fun event => event.index? == some index

/-- The events of the whole message. -/
def ofMessage (events : List StreamEvent) : List StreamEvent :=
  events.filter fun event => event.index?.isNone

/-- The same events, in the same order within each index and among the message's
    own, with a message start first and a message stop last in both or in neither. -/
structure Reordered (events events' : List StreamEvent) : Prop where
  blocks : ∀ index, ofIndex events index = ofIndex events' index
  message : ofMessage events = ofMessage events'
  first : events.head?.any StreamEvent.isMessageStart =
    events'.head?.any StreamEvent.isMessageStart
  last : events.getLast?.any StreamEvent.isMessageStop =
    events'.getLast?.any StreamEvent.isMessageStop

theorem Reordered.symm {events events' : List StreamEvent} (h : Reordered events events') :
    Reordered events' events :=
  ⟨fun index => (h.blocks index).symm, h.message.symm, h.first.symm, h.last.symm⟩

/-- Two neighbours may be swapped, unless they are of one index, or both of the
    message, or one of them starts or stops the message. -/
theorem reordered_swap (before after : List StreamEvent) {x y : StreamEvent}
    (hindex : x.index? ≠ y.index?)
    (hx : x.isMessageStart = false ∧ x.isMessageStop = false)
    (hy : y.isMessageStart = false ∧ y.isMessageStop = false) :
    Reordered (before ++ x :: y :: after) (before ++ y :: x :: after) := by
  -- A filter that does not keep both of them does not see the swap.
  have hswap : ∀ p : StreamEvent → Bool, ¬ (p x = true ∧ p y = true) →
      (before ++ x :: y :: after).filter p = (before ++ y :: x :: after).filter p := by
    intro p hp
    rw [List.filter_append, List.filter_append]
    congr 1
    by_cases hpx : p x = true
    · have hpy : ¬ p y = true := fun h => hp ⟨hpx, h⟩
      rw [List.filter_cons_of_pos hpx, List.filter_cons_of_neg hpy, List.filter_cons_of_neg hpy,
        List.filter_cons_of_pos hpx]
    · by_cases hpy : p y = true
      · rw [List.filter_cons_of_neg hpx, List.filter_cons_of_pos hpy, List.filter_cons_of_pos hpy,
          List.filter_cons_of_neg hpx]
      · rw [List.filter_cons_of_neg hpx, List.filter_cons_of_neg hpy, List.filter_cons_of_neg hpy,
          List.filter_cons_of_neg hpx]
  constructor
  · intro index
    apply hswap
    intro hboth
    exact hindex ((beq_iff_eq.mp hboth.1).trans (beq_iff_eq.mp hboth.2).symm)
  · apply hswap
    intro hboth
    exact hindex ((Option.isNone_iff_eq_none.mp hboth.1).trans
      (Option.isNone_iff_eq_none.mp hboth.2).symm)
  · cases before with
    | nil => simp [hx.1, hy.1]
    | cons first before => rfl
  · rcases List.eq_nil_or_concat after with rfl | ⟨after, last, rfl⟩
    · simp [hx.2, hy.2]
    · have hlast : ∀ u v : StreamEvent,
          (before ++ u :: v :: after.concat last).getLast? = some last := fun u v => by
        rw [List.concat_eq_append, ← List.cons_append, ← List.cons_append, ← List.append_assoc,
          List.getLast?_concat]
      rw [hlast, hlast]

/-! ### What the events of an index say -/

/-- What a filter keeps, read by a function that looks at nothing else. -/
theorem filterMap_filter {α β : Type} {p : α → Bool} {q : β → Bool} {f : α → Option β}
    (h : ∀ a b, f a = some b → p a = q b) (as : List α) :
    (as.filter p).filterMap f = (as.filterMap f).filter q := by
  induction as with
  | nil => rfl
  | cons a as ih =>
    cases hf : f a with
    | none =>
      rw [List.filterMap_cons_none hf, ← ih]
      by_cases hp : p a = true
      · rw [List.filter_cons_of_pos hp, List.filterMap_cons_none hf]
      · rw [List.filter_cons_of_neg hp]
    | some b =>
      rw [List.filterMap_cons_some hf]
      by_cases hp : p a = true
      · rw [List.filter_cons_of_pos hp, List.filterMap_cons_some hf, ih,
          List.filter_cons_of_pos ((h a b hf).symm.trans hp)]
      · rw [List.filter_cons_of_neg hp, ih,
          List.filter_cons_of_neg (fun hq => hp ((h a b hf).trans hq))]

theorem starts_ofIndex (events : List StreamEvent) (index : Nat) :
    starts (ofIndex events index) = (starts events).filter fun x => x.1 == index := by
  apply filterMap_filter
  intro event x hstarts
  rw [index_starts hstarts]
  rfl

theorem stops_ofIndex (events : List StreamEvent) (index : Nat) :
    stops (ofIndex events index) = (stops events).filter fun i => i == index := by
  apply filterMap_filter
  intro event i hstops
  rw [index_stops hstops]
  rfl

theorem partsOf_ofIndex {part : StreamEvent → Option (Nat × String)}
    (hpart : ∀ {event : StreamEvent} (p : Nat × String), part event = some p →
      event.index? = some p.1) (events : List StreamEvent) (index : Nat) :
    partsOf part events index = ((ofIndex events index).filterMap part).map Prod.snd := by
  unfold partsOf ofIndex
  rw [filterMap_filter]
  intro event p hp
  rw [hpart p hp]
  rfl

theorem mem_starts_ofIndex {events : List StreamEvent} {x : Nat × BlockStart} :
    x ∈ starts events ↔ x ∈ starts (ofIndex events x.1) := by
  rw [starts_ofIndex, List.mem_filter]
  exact ⟨fun h => ⟨h, beq_self_eq_true _⟩, fun h => h.1⟩

theorem mem_stops_ofIndex {events : List StreamEvent} {index : Nat} :
    index ∈ stops events ↔ index ∈ stops (ofIndex events index) := by
  rw [stops_ofIndex, List.mem_filter]
  exact ⟨fun h => ⟨h, beq_self_eq_true _⟩, fun h => h.1⟩

theorem lookup_ofIndex (events : List StreamEvent) (index : Nat) :
    (starts events).lookup index = (starts (ofIndex events index)).lookup index := by
  rw [starts_ofIndex]
  induction starts events with
  | nil => rfl
  | cons x xs ih =>
    obtain ⟨i, block⟩ := x
    rw [SortedMap.lookup_cons_ite]
    by_cases hi : index = i
    · rw [if_pos hi, List.filter_cons_of_pos (by simp [hi]), SortedMap.lookup_cons_ite, if_pos hi]
    · rw [if_neg hi, List.filter_cons_of_neg (by simpa using fun h => hi h.symm), ih]

/-- The message's own events decide the summary. -/
theorem summaryOf_ofMessage (events : List StreamEvent) :
    summaryOf events = summaryOf (ofMessage events) := by
  unfold summaryOf ofMessage
  rw [List.foldl_filter]
  congr 1
  funext s event
  cases event <;> rfl

/-! ### Reordered streams say the same -/

section

variable {events events' : List StreamEvent}

theorem Reordered.lookup (h : Reordered events events') (index : Nat) :
    (starts events).lookup index = (starts events').lookup index := by
  rw [lookup_ofIndex, h.blocks, ← lookup_ofIndex]

theorem Reordered.partsOf (h : Reordered events events')
    {part : StreamEvent → Option (Nat × String)}
    (hpart : ∀ {event : StreamEvent} (p : Nat × String), part event = some p →
      event.index? = some p.1) (index : Nat) :
    partsOf part events index = partsOf part events' index := by
  rw [partsOf_ofIndex hpart, h.blocks, ← partsOf_ofIndex hpart]

theorem Reordered.argumentsOf (h : Reordered events events') (index : Nat) :
    argumentsOf events index = argumentsOf events' index :=
  congrArg String.join (h.partsOf index_inputPart index)

theorem Reordered.contentOf (h : Reordered events events') (index : Nat) (block : BlockStart) :
    contentOf fromStr events index block = contentOf fromStr events' index block := by
  unfold Accumulation.contentOf signatureOf
  rw [h.partsOf index_textPart, h.partsOf index_thinkingPart, h.partsOf index_signaturePart,
    h.argumentsOf]

theorem Reordered.invalidInput (h : Reordered events events') :
    invalidInput fromStr events = invalidInput fromStr events' := by
  funext index
  unfold Accumulation.invalidInput
  rw [h.lookup, h.argumentsOf]

theorem Reordered.started_perm (h : Reordered events events') :
    ((starts events).map Prod.fst).Perm ((starts events').map Prod.fst) := by
  rw [List.perm_iff_count]
  intro index
  -- How often an index is started is seen among its own events.
  have hcount : ∀ l : List StreamEvent, ((starts l).map Prod.fst).count index =
      (starts (ofIndex l index)).length := by
    intro l
    rw [starts_ofIndex, List.count, List.countP_map, List.countP_eq_length_filter]
    rfl
  rw [hcount, hcount, h.blocks]

theorem Reordered.stops_perm (h : Reordered events events') :
    (stops events).Perm (stops events') := by
  rw [List.perm_iff_count]
  intro index
  have hcount : ∀ l : List StreamEvent, (stops l).count index =
      (stops (ofIndex l index)).length := by
    intro l
    rw [stops_ofIndex, List.count, List.countP_eq_length_filter]
  rw [hcount, hcount, h.blocks]

theorem Reordered.contents (h : Reordered events events') :
    contents fromStr events = contents fromStr events' := by
  have hsorted : ((starts events).map Prod.fst).insertionSort (· ≤ ·) =
      ((starts events').map Prod.fst).insertionSort (· ≤ ·) := by
    have hperm := (List.perm_insertionSort (· ≤ ·) _).trans
      (h.started_perm.trans (List.perm_insertionSort (· ≤ ·) _).symm)
    apply List.Perm.eq_of_pairwise _ (List.pairwise_insertionSort _ _)
      (List.pairwise_insertionSort _ _) hperm
    exact fun a b _ _ hab hba => Nat.le_antisymm hab hba
  unfold Accumulation.contents
  rw [hsorted]
  congr 1
  funext index
  rw [h.lookup]
  congr 1
  funext block
  exact h.contentOf index block

theorem Reordered.summaryOf (h : Reordered events events') :
    summaryOf events = summaryOf events' := by
  rw [summaryOf_ofMessage, h.message, ← summaryOf_ofMessage]

/-- Events of the message that a test singles out. -/
theorem Reordered.filter_message (h : Reordered events events') {p : StreamEvent → Bool}
    (hp : ∀ event, p event = true → event.index? = none) :
    events.filter p = events'.filter p := by
  have hthrough : ∀ l : List StreamEvent, l.filter p = (ofMessage l).filter p := by
    intro l
    unfold ofMessage
    rw [List.filter_filter]
    apply List.filter_congr
    intro event _
    cases hpe : p event with
    | false => rfl
    | true => rw [hp event hpe]; rfl
  rw [hthrough, h.message, ← hthrough]

theorem isMessageStart_index (event : StreamEvent) (h : event.isMessageStart = true) :
    event.index? = none := by
  cases event <;> first | rfl | cases h

theorem isMessageStop_index (event : StreamEvent) (h : event.isMessageStop = true) :
    event.index? = none := by
  cases event <;> first | rfl | cases h

theorem reason_index (event : StreamEvent) (h : event.reason.isSome = true) :
    event.index? = none := by
  cases event <;> first | rfl | cases h

/-- A delta or a stop finds the same events of its block before it. -/
theorem Reordered.split (h : Reordered events events') {before after : List StreamEvent}
    {event : StreamEvent} (heq : events' = before ++ event :: after) {index : Nat}
    (hindex : event.index? = some index) :
    ∃ before' after', events = before' ++ event :: after' ∧
      ofIndex before' index = ofIndex before index := by
  have hsame : ofIndex events index =
      ofIndex before index ++ event :: ofIndex after index := by
    have hkeep : (event.index? == some index) = true := beq_iff_eq.mpr hindex
    rw [h.blocks, heq]
    unfold ofIndex
    rw [List.filter_append, List.filter_cons, if_pos hkeep]
  obtain ⟨front, rest, rfl, hfront, hrest⟩ := List.filter_eq_append_iff.mp hsame
  obtain ⟨skipped, after', rfl, hskipped, -, -⟩ := List.filter_eq_cons_iff.mp hrest
  refine ⟨front ++ skipped, after', by simp, ?_⟩
  unfold ofIndex at hfront ⊢
  rw [List.filter_append, hfront, List.filter_eq_nil_iff.mpr hskipped, List.append_nil]

/-- A list whose only element of a kind comes first. -/
theorem tail_of_filter {α : Type} {p : α → Bool} {first : α} {rest : List α}
    (hfirst : p first = true) (h : ((first :: rest).filter p).length = 1) :
    ∀ a ∈ rest, p a = false := by
  rw [List.filter_cons_of_pos hfirst, List.length_cons] at h
  have hnil : rest.filter p = [] := List.length_eq_zero_iff.mp (by omega)
  intro a ha
  exact Bool.eq_false_iff.mpr (List.filter_eq_nil_iff.mp hnil a ha)

theorem Reordered.wellFormed (h : Reordered events events') (hw : WellFormed events) :
    WellFormed events' := by
  constructor
  · obtain ⟨first, rest, rfl, hfirst, hrest⟩ := hw.start
    have hhead := h.first
    cases events' with
    | nil =>
      have : first.isMessageStart = false := hhead
      rw [hfirst] at this
      cases this
    | cons first' rest' =>
      have hfirst' : first'.isMessageStart = true := hhead.symm.trans hfirst
      refine ⟨first', rest', rfl, hfirst', tail_of_filter hfirst' ?_⟩
      rw [← h.filter_message isMessageStart_index, List.filter_cons_of_pos hfirst,
        List.filter_eq_nil_iff.mpr fun e he => by rw [hrest e he]; exact Bool.false_ne_true]
      rfl
  · obtain ⟨front, last, rfl, hlast, hfront⟩ := hw.stop
    have hend := h.last
    rw [List.getLast?_concat] at hend
    rcases List.eq_nil_or_concat events' with rfl | ⟨front', last', rfl⟩
    · have : last.isMessageStop = false := hend
      rw [hlast] at this
      cases this
    · rw [List.concat_eq_append, List.getLast?_concat] at hend
      have hlast' : last'.isMessageStop = true := hend.symm.trans hlast
      refine ⟨front', last', List.concat_eq_append .., hlast', ?_⟩
      have hcount := h.filter_message isMessageStop_index
      rw [List.concat_eq_append, List.filter_append, List.filter_append,
        List.filter_eq_nil_iff.mpr fun e he => by rw [hfront e he]; exact Bool.false_ne_true,
        List.filter_cons_of_pos hlast, List.filter_cons_of_pos hlast'] at hcount
      have hlength := congrArg List.length hcount
      simp only [List.filter_nil, List.nil_append, List.length_singleton, List.length_append]
        at hlength
      have hnil := List.length_eq_zero_iff.mp (by omega :
        (front'.filter StreamEvent.isMessageStop).length = 0)
      exact fun e he => Bool.eq_false_iff.mpr (List.filter_eq_nil_iff.mp hnil e he)
  · exact h.started_perm.nodup_iff.mp hw.startedOnce
  · intro before event after heq index hrefers
    obtain ⟨before', after', heq', hsame⟩ := h.split heq (index_refersTo hrefers).1
    obtain ⟨block, hblock, hopen, hfits⟩ := hw.refers before' event after' heq' index hrefers
    refine ⟨block, ?_, ?_, hfits⟩
    · rw [mem_starts_ofIndex] at hblock ⊢
      exact hsame ▸ hblock
    · rw [mem_stops_ofIndex] at hopen ⊢
      exact hsame ▸ hopen
  · intro index hmem
    exact h.stops_perm.mem_iff.mp (hw.stopped index (h.started_perm.mem_iff.mpr hmem))
  · obtain ⟨event, hmem, hreason⟩ := hw.reason
    have hin : event ∈ events.filter fun e => e.reason.isSome := List.mem_filter.mpr ⟨hmem, hreason⟩
    rw [h.filter_message reason_index] at hin
    exact ⟨event, (List.mem_filter.mp hin).1, hreason⟩

end

/-! ### The result -/

/-- What a stream comes to in any order: the same response, with the same invalid
    inputs, or an error. -/
theorem accumulate_reordered {events events' : List StreamEvent} (h : Reordered events events') :
    (∃ response invalid invalid', accumulate fromStr events = .ok (response, invalid) ∧
      accumulate fromStr events' = .ok (response, invalid') ∧ invalid.Perm invalid') ∨
    (∃ error error', accumulate fromStr events = .error error ∧
      accumulate fromStr events' = .error error') := by
  by_cases hw : WellFormed events
  · obtain ⟨id, model, stopReason, hheader, hreason, hok⟩ := accumulate_wellFormed hw
    obtain ⟨id', model', stopReason', hheader', hreason', hok'⟩ :=
      accumulate_wellFormed (h.wellFormed hw)
    rw [← h.summaryOf, hheader] at hheader'
    rw [← h.summaryOf, hreason] at hreason'
    obtain ⟨rfl, rfl⟩ := Prod.mk.inj (Option.some.inj hheader')
    obtain rfl := Option.some.inj hreason'
    rw [← h.summaryOf, ← h.contents, ← h.invalidInput] at hok'
    exact .inl ⟨_, _, _, hok, hok', h.stops_perm.filter _⟩
  · have hw' : ¬ WellFormed events' := fun hw' => hw (h.symm.wellFormed hw')
    obtain ⟨error, herror⟩ := accumulate_error hw
    obtain ⟨error', herror'⟩ := accumulate_error hw'
    exact .inr ⟨error, error', herror, herror'⟩

/-- A tool use is reported where it has started, has arguments, and they do not parse. -/
theorem mem_invalid_iff {events : List StreamEvent} (h : WellFormed events) {index : Nat} :
    index ∈ (stops events).filter (invalidInput fromStr events) ↔
      invalidInput fromStr events index = true := by
  rw [List.mem_filter, and_iff_right_iff_imp]
  intro hinvalid
  apply h.stopped
  rw [← lookup_isSome_iff]
  unfold invalidInput at hinvalid
  cases hlookup : (starts events).lookup index with
  | none =>
    rw [hlookup] at hinvalid
    cases hinvalid
  | some block => rfl

/-- A stream adds up to a response exactly if it is well formed. Its content is
    then that of the blocks by increasing index, and neither cutting a delta in
    two, nor merging two, nor another order of different blocks changes it. -/
theorem accumulate_iff (fromStr : String → Option Json) (events : List StreamEvent) :
    ((∃ result, accumulate fromStr events = .ok result) ↔ WellFormed events) ∧
    (∀ response invalid, accumulate fromStr events = .ok (response, invalid) →
      response.content = contents fromStr events ∧
      ∀ index, index ∈ invalid ↔ invalidInput fromStr events index = true) ∧
    (∀ before whole first second after, Splits whole first second →
      events = before ++ whole :: after →
      accumulate fromStr (before ++ first :: second :: after) = accumulate fromStr events) ∧
    (∀ before whole first second after, Splits whole first second →
      events = before ++ first :: second :: after →
      accumulate fromStr (before ++ whole :: after) = accumulate fromStr events) ∧
    (∀ events', Reordered events events' →
      (∃ response invalid invalid', accumulate fromStr events = .ok (response, invalid) ∧
        accumulate fromStr events' = .ok (response, invalid') ∧ invalid.Perm invalid') ∨
      (∃ error error', accumulate fromStr events = .error error ∧
        accumulate fromStr events' = .error error')) := by
  refine ⟨?_, ?_, ?_, ?_, fun events' h => accumulate_reordered h⟩
  · constructor
    · intro hok
      by_contra hno
      obtain ⟨result, hok⟩ := hok
      obtain ⟨error, herror⟩ := @accumulate_error fromStr _ hno
      rw [hok] at herror
      cases herror
    · intro h
      obtain ⟨id, model, stopReason, -, -, hok⟩ := @accumulate_wellFormed fromStr _ h
      exact ⟨_, hok⟩
  · intro response invalid hok
    by_cases h : WellFormed events
    · obtain ⟨id, model, stopReason, -, -, hok'⟩ := @accumulate_wellFormed fromStr _ h
      obtain ⟨rfl, rfl⟩ := Prod.mk.inj (Except.ok.inj (hok.symm.trans hok'))
      exact ⟨rfl, fun index => mem_invalid_iff h⟩
    · obtain ⟨error, herror⟩ := @accumulate_error fromStr _ h
      rw [hok] at herror
      cases herror
  · intro before whole first second after h heq
    rw [heq]
    exact (accumulate_splits h before after).symm
  · intro before whole first second after h heq
    rw [heq]
    exact accumulate_splits h before after

end Kyora.Accumulation
