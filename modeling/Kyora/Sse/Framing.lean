import Kyora.Sse.Reference

/-! # Framing does not depend on the chunks

  The parser keeps, of the bytes it has seen, the unfinished line, and of the
  lines, what the blank line that follows will need. So the events of all the
  chunks are those that the reference decoder reads from the whole stream.
-/

namespace Kyora.Sse

/-! ### Chunks -/

/-- What a parser says after some events. -/
def later (events : List Event) (r : Parser × List Event) : Parser × List Event :=
  (r.1, events ++ r.2)

theorem later_none (events : List Event) (p : Parser) : later events (p, []) = (p, events) :=
  congrArg (Prod.mk p) (List.append_nil events)

theorem map_later (events : List Event) (x : Except ProviderError (Parser × List Event)) :
    (x.map (later events)).map Prod.snd = (x.map Prod.snd).map (events ++ ·) := by
  cases x with
  | error e => rfl
  | ok r => rfl

theorem onText_events (p : Parser) (text : List Char) (events : List Event) :
    p.onText text events = ((p.onText text []).1, events ++ (p.onText text []).2) := by
  unfold Parser.onText
  split
  · by_cases h : p.hasData
    · rw [if_pos h, if_pos h, List.nil_append]
    · rw [if_neg h, if_neg h, List.append_nil]
  · rw [List.append_nil]
  · rw [List.append_nil]

theorem onLine_events (p : Parser) (events : List Event) :
    p.onLine events = (p.onLine []).map (later events) := by
  unfold Parser.onLine
  cases Utf8.decode p.line with
  | none => rfl
  | some text => exact congrArg Except.ok (onText_events _ _ events)

theorem feedByte_eq (p : Parser) (events : List Event) (byte : UInt8) :
    Parser.feedByte (p, events) byte =
      if p.skipLf ∧ byte = 10 then .ok ({ p with skipLf := false }, events)
      else if byte = 13 ∨ byte = 10 then
        (({ p with skipLf := false }).onLine events).map
          fun r : Parser × List Event => ({ r.1 with skipLf := byte == 13 }, r.2)
      else .ok ({ p with skipLf := false, line := p.line ++ [byte] }, events) := rfl

theorem feedByte_events (p : Parser) (events : List Event) (byte : UInt8) :
    Parser.feedByte (p, events) byte =
      (Parser.feedByte (p, []) byte).map (later events) := by
  rw [feedByte_eq, feedByte_eq]
  by_cases hskip : p.skipLf ∧ byte = 10
  · rw [if_pos hskip, if_pos hskip, Except.map, later_none]
  · rw [if_neg hskip, if_neg hskip]
    by_cases hend : byte = 13 ∨ byte = 10
    · rw [if_pos hend, if_pos hend, onLine_events]
      cases Parser.onLine { p with skipLf := false } [] with
      | error e => rfl
      | ok r => rfl
    · rw [if_neg hend, if_neg hend, Except.map, later_none]

/-- What came before a byte is kept in front of what comes after it. -/
theorem foldlM_feedByte (p : Parser) (events : List Event) (bytes : List UInt8) :
    bytes.foldlM Parser.feedByte (p, events) = (p.feed bytes).map (later events) := by
  unfold Parser.feed
  induction bytes generalizing p events with
  | nil => exact congrArg (fun e => Except.ok (p, e)) (List.append_nil events).symm
  | cons byte bytes ih =>
    rw [List.foldlM_cons, List.foldlM_cons, feedByte_events]
    cases Parser.feedByte (p, []) byte with
    | error e => rfl
    | ok r =>
      show bytes.foldlM Parser.feedByte (r.1, events ++ r.2) =
        (bytes.foldlM Parser.feedByte (r.1, r.2)).map (later events)
      rw [ih r.1 (events ++ r.2), ih r.1 r.2]
      cases bytes.foldlM Parser.feedByte (r.1, []) with
      | error e => rfl
      | ok s => exact congrArg (fun e => Except.ok (s.1, e)) (List.append_assoc events r.2 s.2)

theorem feed_cons (p : Parser) (byte : UInt8) (bytes : List UInt8) :
    p.feed (byte :: bytes) =
      (Parser.feedByte (p, []) byte).bind fun r => (r.1.feed bytes).map (later r.2) := by
  show ((Parser.feedByte (p, []) byte).bind fun r => bytes.foldlM Parser.feedByte r) = _
  congr 1
  funext r
  exact foldlM_feedByte r.1 r.2 bytes

theorem feed_append (p : Parser) (a b : List UInt8) :
    p.feed (a ++ b) = (p.feed a).bind fun r => (r.1.feed b).map (later r.2) := by
  show (a ++ b).foldlM Parser.feedByte (p, []) = _
  rw [List.foldlM_append]
  show (p.feed a).bind _ = _
  congr 1
  funext r
  exact foldlM_feedByte r.1 r.2 b

/-- Bytes after those that the parser accepts. -/
theorem feed_append_ok {p q : Parser} {a : List UInt8} {events : List Event}
    (h : p.feed a = .ok (q, events)) (b : List UInt8) :
    p.feed (a ++ b) = (q.feed b).map (later events) := by
  rw [feed_append, h]
  rfl

/-- The chunks of a stream, one after the other, are the stream. -/
theorem feedAll_eq (p : Parser) (chunks : List (List UInt8)) :
    p.feedAll chunks = p.feed chunks.flatten := by
  induction chunks generalizing p with
  | nil => rfl
  | cons chunk chunks ih =>
    rw [List.flatten_cons, feed_append]
    unfold Parser.feedAll
    cases p.feed chunk with
    | error e => rfl
    | ok r =>
      show (r.1.feedAll chunks).map _ = (r.1.feed chunks.flatten).map _
      rw [ih r.1]
      rfl

/-! ### Lines -/

/-- The lines of a stream, one after the other. -/
def Parser.onLines (p : Parser) : List (List UInt8) → Except ProviderError (Parser × List Event)
  | [] => .ok (p, [])
  | line :: lines =>
    (({ p with line := line }).onLine []).bind fun (q, events) =>
      (q.onLines lines).map fun (r, later) => (r, events ++ later)

theorem onLines_line (p : Parser) (part : List UInt8) (lines : List (List UInt8)) :
    (({ p with line := part }).onLines lines).map Prod.snd = (p.onLines lines).map Prod.snd := by
  cases lines with
  | nil => rfl
  | cons line lines => rfl

/-- A line leaves nothing of itself behind. -/
theorem onText_keeps (p : Parser) (text : List Char) (events : List Event) :
    (p.onText text events).1.line = p.line ∧ (p.onText text events).1.skipLf = p.skipLf ∧
      (p.onText text events).1.firstLine = p.firstLine := by
  unfold Parser.onText
  split
  · exact ⟨rfl, rfl, rfl⟩
  · exact ⟨rfl, rfl, rfl⟩
  · dsimp only
    unfold Parser.onField
    split_ifs
    · exact ⟨rfl, rfl, rfl⟩
    · exact ⟨rfl, rfl, rfl⟩
    · exact ⟨rfl, rfl, rfl⟩
    · exact ⟨rfl, rfl, rfl⟩
    · cases parseRetry (fieldOf text).2 with
      | none => exact ⟨rfl, rfl, rfl⟩
      | some retry => exact ⟨rfl, rfl, rfl⟩
    · exact ⟨rfl, rfl, rfl⟩

theorem onLine_ok {p : Parser} {events : List Event} {r : Parser × List Event}
    (h : p.onLine events = .ok r) :
    r.1.line = [] ∧ r.1.skipLf = p.skipLf ∧ r.1.firstLine = false := by
  unfold Parser.onLine at h
  cases hd : Utf8.decode p.line with
  | none =>
    rw [hd] at h
    cases h
  | some text =>
    rw [hd] at h
    obtain rfl := Except.ok.inj h
    exact onText_keeps _ _ _

/-- The byte that ends a line. -/
theorem feedByte_end {p : Parser} {byte : UInt8} (hend : byte = 13 ∨ byte = 10)
    (hp : p.skipLf = false) :
    Parser.feedByte (p, []) byte =
      (p.onLine []).map fun r : Parser × List Event =>
        ({ r.1 with skipLf := byte == 13 }, r.2) := by
  have hskip : ¬(p.skipLf ∧ byte = 10) := by simp [hp]
  have hself : { p with skipLf := false } = p := by rw [← hp]
  rw [feedByte_eq, if_neg hskip, if_pos hend, hself]

/-- A pending CR is forgotten at a byte that is no LF. -/
theorem feed_skipLf {p : Parser} {bytes : List UInt8} (hbytes : ∀ stream, bytes ≠ 10 :: stream) :
    (({ p with skipLf := true }).feed bytes).map Prod.snd =
      (({ p with skipLf := false }).feed bytes).map Prod.snd := by
  cases bytes with
  | nil => rfl
  | cons byte bytes =>
    have hlf : byte ≠ 10 := fun h => hbytes bytes (by rw [h])
    have hbyte : Parser.feedByte ({ p with skipLf := true }, []) byte =
        Parser.feedByte ({ p with skipLf := false }, []) byte := by
      have hno : ∀ q : Parser, ¬(q.skipLf ∧ byte = 10) := fun q h => hlf h.2
      rw [feedByte_eq, feedByte_eq, if_neg (hno _), if_neg (hno _)]
    rw [feed_cons, feed_cons, hbyte]

/-- After a CR the LF of a CRLF is passed over. -/
theorem feed_crlf (p : Parser) (bytes : List UInt8) :
    ({ p with skipLf := true }).feed (10 :: bytes) = ({ p with skipLf := false }).feed bytes := by
  have hbyte : Parser.feedByte ({ p with skipLf := true }, []) 10 =
      .ok ({ p with skipLf := false }, []) := by
    rw [feedByte_eq]
    exact if_pos ⟨rfl, rfl⟩
  rw [feed_cons, hbyte]
  show (({ p with skipLf := false }).feed bytes).map _ = _
  cases ({ p with skipLf := false }).feed bytes with
  | error e => rfl
  | ok r => rfl

/-- A byte inside a line. -/
theorem feed_byte {p : Parser} (hp : p.skipLf = false) {byte : UInt8} (h13 : byte ≠ 13)
    (h10 : byte ≠ 10) (bytes : List UInt8) :
    p.feed (byte :: bytes) = ({ p with line := p.line ++ [byte] }).feed bytes := by
  have hbyte : Parser.feedByte (p, []) byte = .ok ({ p with line := p.line ++ [byte] }, []) := by
    rw [feedByte_eq, if_neg (fun h => h10 h.2), if_neg (fun h => h.elim h13 h10), hp]
  rw [feed_cons, hbyte]
  show (({ p with line := p.line ++ [byte] }).feed bytes).map _ = _
  cases ({ p with line := p.line ++ [byte] }).feed bytes with
  | error e => rfl
  | ok r => rfl

/-- The byte that ends a line, and what the rest of the stream gives after it. -/
theorem feed_end {p : Parser} {byte : UInt8} (hend : byte = 13 ∨ byte = 10)
    (hp : p.skipLf = false) {stream : List UInt8} {lines : List (List UInt8)}
    (hrest : ∀ q events, p.onLine [] = .ok (q, events) →
      (({ q with skipLf := byte == 13 }).feed stream).map Prod.snd =
        (q.onLines lines).map Prod.snd) :
    (p.feed (byte :: stream)).map Prod.snd = (p.onLines (p.line :: lines)).map Prod.snd := by
  rw [feed_cons, feedByte_end hend hp]
  unfold Parser.onLines
  show _ = Except.map Prod.snd ((p.onLine []).bind _)
  cases hline : p.onLine [] with
  | error e => rfl
  | ok r =>
    obtain ⟨q, events⟩ := r
    show Except.map Prod.snd (Except.map (later events) _) =
      Except.map Prod.snd (Except.map (later events) (q.onLines lines))
    rw [map_later, map_later, hrest q events hline]

/-- The parser sees a stream as its terminated lines. -/
theorem feed_terminated {p : Parser} (hp : p.skipLf = false) (stream : List UInt8) :
    (p.feed stream).map Prod.snd = (p.onLines (terminated p.line stream)).map Prod.snd := by
  generalize hpart : p.line = part
  induction part, stream using terminated.induct generalizing p with
  | case1 part => rfl
  | case2 part stream ih =>
    rw [terminated, ← hpart]
    apply feed_end (.inr rfl) hp
    intro q events hline
    obtain ⟨hq, hskip, -⟩ := onLine_ok hline
    have hself : { q with skipLf := (10 : UInt8) == 13 } = q := by
      rw [show ((10 : UInt8) == 13) = q.skipLf from (hskip.trans hp).symm]
    rw [hself]
    exact ih (hskip.trans hp) hq
  | case3 part stream ih =>
    rw [terminated, ← hpart]
    apply feed_end (.inl rfl) hp
    intro q events hline
    obtain ⟨hq, hskip, -⟩ := onLine_ok hline
    have hself : { q with skipLf := false } = q := by rw [← hskip.trans hp]
    show (({ q with skipLf := true }).feed (10 :: stream)).map Prod.snd = _
    rw [feed_crlf, hself]
    exact ih (hskip.trans hp) hq
  | case4 part stream hlf ih =>
    rw [terminated_cr part hlf, ← hpart]
    apply feed_end (.inl rfl) hp
    intro q events hline
    obtain ⟨hq, hskip, -⟩ := onLine_ok hline
    have hself : { q with skipLf := false } = q := by rw [← hskip.trans hp]
    show (({ q with skipLf := true }).feed stream).map Prod.snd = _
    rw [feed_skipLf hlf, hself]
    exact ih (hskip.trans hp) hq
  | case5 part byte stream h10 hcrlf h13 ih =>
    rw [terminated_byte part h13 h10, feed_byte hp h13 h10, hpart,
      ← onLines_line p (part ++ [byte])]
    exact ih (p := { p with line := part ++ [byte] }) hp rfl

/-! ### Fields -/

theorem fields_append (a b : List (List Char)) : fields (a ++ b) = fields a ++ fields b := by
  unfold fields
  rw [List.filter_append, List.map_append]

theorem fields_comment (block : List (List Char)) (text : List Char) :
    fields (block ++ [':' :: text]) = fields block := by
  rw [fields_append]
  exact List.append_nil _

theorem fields_field (block : List (List Char)) {text : List Char} (h : text.head? ≠ some ':') :
    fields (block ++ [text]) = fields block ++ [fieldOf text] := by
  have hkeep : (text.head? != some ':') = true := bne_iff_ne.mpr h
  rw [fields_append, show fields [text] = [fieldOf text] by simp [fields, hkeep]]

theorem valuesOf_append (name : String) (fs gs : List (List Char × List Char)) :
    valuesOf name (fs ++ gs) = valuesOf name fs ++ valuesOf name gs := by
  unfold valuesOf
  rw [List.filter_append, List.map_append]

theorem valuesOf_same {name : String} {f : List Char × List Char} (h : f.1 = name.toList) :
    valuesOf name [f] = [f.2] := by
  unfold valuesOf
  rw [List.filter_cons_of_pos (by simp [h])]
  rfl

theorem valuesOf_other {name : String} {f : List Char × List Char} (h : f.1 ≠ name.toList) :
    valuesOf name [f] = [] := by
  unfold valuesOf
  rw [List.filter_cons_of_neg (by simp [h])]
  rfl

theorem valuesOf_concat (name : String) (fs : List (List Char × List Char))
    (f : List Char × List Char) :
    valuesOf name (fs ++ [f]) =
      if f.1 = name.toList then valuesOf name fs ++ [f.2] else valuesOf name fs := by
  rw [valuesOf_append]
  by_cases hname : f.1 = name.toList
  · rw [if_pos hname, valuesOf_same hname]
  · rw [if_neg hname, valuesOf_other hname, List.append_nil]

theorem idOf_append (fs : List (List Char × List Char)) (f : List Char × List Char) :
    idOf (fs ++ [f]) =
      if f.1 = "id".toList ∧ f.2.contains '\x00' = false then f.2 else idOf fs := by
  unfold idOf
  rw [valuesOf_append, List.filter_append]
  by_cases hname : f.1 = "id".toList
  · rw [valuesOf_same hname]
    by_cases hnul : f.2.contains '\x00' = false
    · rw [if_pos ⟨hname, hnul⟩, List.filter_cons_of_pos (by rw [hnul]; rfl), List.filter_nil,
        List.getLast?_concat, Option.getD_some]
    · rw [if_neg (fun h => hnul h.2), List.filter_cons_of_neg (by simpa using hnul),
        List.filter_nil, List.append_nil]
  · rw [valuesOf_other hname, if_neg (fun h => hname h.1), List.filter_nil, List.append_nil]

theorem retryOf_append (fs : List (List Char × List Char)) (f : List Char × List Char) :
    retryOf (fs ++ [f]) =
      if f.1 = "retry".toList then (parseRetry f.2).or (retryOf fs) else retryOf fs := by
  unfold retryOf
  rw [valuesOf_append, List.filterMap_append]
  by_cases hname : f.1 = "retry".toList
  · rw [valuesOf_same hname, if_pos hname]
    cases hretry : parseRetry f.2 with
    | none => rw [List.filterMap_cons_none hretry, List.filterMap_nil, List.append_nil,
        Option.none_or]
    | some retry => rw [List.filterMap_cons_some hretry, List.filterMap_nil,
        List.getLast?_concat, Option.some_or]
  · rw [valuesOf_other hname, if_neg hname, List.filterMap_nil, List.append_nil]

/-! ### Events -/

/-- What the parser holds after the fields `before` of dispatched blocks and the
    lines `block` of the current one. -/
structure Reads (p : Parser) (before : List (List Char × List Char))
    (block : List (List Char)) : Prop where
  lastId : p.lastId = idOf (before ++ fields block)
  retry : p.retry = retryOf (before ++ fields block)
  hasData : p.hasData = true ↔ valuesOf "data" (fields block) ≠ []
  event : p.current.event = ((valuesOf "event" (fields block)).getLast?).getD []
  data : p.current.data = (valuesOf "data" (fields block)).flatMap (· ++ ['\n'])

theorem reads_new : Reads Parser.new [] [] := ⟨rfl, rfl, by decide, rfl, rfl⟩

/-- The newline after each value, without the last one, stands between them. -/
theorem dropLast_flatMap_newline {values : List (List Char)} (h : values ≠ []) :
    (values.flatMap (· ++ ['\n'])).dropLast = ['\n'].intercalate values := by
  induction values with
  | nil => exact absurd rfl h
  | cons value values ih =>
    cases values with
    | nil => simp
    | cons next values =>
      have hne : (next :: values).flatMap (· ++ ['\n']) ≠ [] := by simp
      rw [List.flatMap_cons, List.dropLast_append_of_ne_nil hne, ih (by simp)]
      simp [List.intercalate, List.intersperse]

/-- A blank line dispatches the block, if it has data. -/
theorem Reads.blank {p : Parser} {before : List (List Char × List Char)}
    {block : List (List Char)} (h : Reads p before block) :
    (p.onText [] []).2 = (eventOf before (fields block)).toList ∧
      Reads (p.onText [] []).1 (before ++ fields block) [] := by
  constructor
  · unfold Parser.onText eventOf
    dsimp only
    by_cases hdata : valuesOf "data" (fields block) = []
    · rw [if_neg (fun hp => h.hasData.mp hp hdata), if_pos hdata]
      rfl
    · rw [if_pos (h.hasData.mpr hdata), if_neg hdata, Option.toList_some, List.nil_append]
      unfold Parser.dispatched nameOf
      rw [h.event, h.data, h.lastId, h.retry, dropLast_flatMap_newline hdata]
  · have hempty : (p.onText [] []).1.hasData = true ↔ valuesOf "data" (fields []) ≠ [] :=
      ⟨fun h => absurd h Bool.false_ne_true, fun h => absurd rfl h⟩
    refine ⟨?_, ?_, hempty, rfl, rfl⟩
    · show p.lastId = idOf (before ++ fields block ++ [])
      rw [List.append_nil, h.lastId]
    · show p.retry = retryOf (before ++ fields block ++ [])
      rw [List.append_nil, h.retry]

/-! What each field of a line changes. -/

theorem onField_lastId (p : Parser) (f : List Char × List Char) :
    (p.onField f.1 f.2).lastId =
      if f.1 = "id".toList ∧ f.2.contains '\x00' = false then f.2 else p.lastId := by
  unfold Parser.onField
  split_ifs <;> simp_all
  split <;> rfl

theorem onField_retry (p : Parser) (f : List Char × List Char) :
    (p.onField f.1 f.2).retry =
      if f.1 = "retry".toList then (parseRetry f.2).or p.retry else p.retry := by
  unfold Parser.onField
  split_ifs <;> simp_all
  split <;> simp_all

theorem onField_hasData (p : Parser) (f : List Char × List Char) :
    (p.onField f.1 f.2).hasData = if f.1 = "data".toList then true else p.hasData := by
  unfold Parser.onField
  split_ifs <;> simp_all
  split <;> rfl

theorem onField_event (p : Parser) (f : List Char × List Char) :
    (p.onField f.1 f.2).current.event =
      if f.1 = "event".toList then f.2 else p.current.event := by
  unfold Parser.onField
  split_ifs <;> simp_all
  split <;> rfl

theorem onField_data (p : Parser) (f : List Char × List Char) :
    (p.onField f.1 f.2).current.data =
      if f.1 = "data".toList then p.current.data ++ f.2 ++ ['\n'] else p.current.data := by
  unfold Parser.onField
  split_ifs <;> simp_all
  split <;> rfl

/-- A field of the current block. -/
theorem Reads.field {p : Parser} {before : List (List Char × List Char)}
    {block : List (List Char)} (h : Reads p before block) {text : List Char}
    (htext : text.head? ≠ some ':') :
    Reads (p.onField (fieldOf text).1 (fieldOf text).2) before (block ++ [text]) := by
  have hfields := fields_field block htext
  constructor
  · rw [onField_lastId, hfields, ← List.append_assoc, idOf_append, h.lastId]
  · rw [onField_retry, hfields, ← List.append_assoc, retryOf_append, h.retry]
  · rw [onField_hasData, hfields, valuesOf_concat]
    by_cases hname : (fieldOf text).1 = "data".toList
    · rw [if_pos hname, if_pos hname]
      exact ⟨fun _ => List.concat_ne_nil _ _, fun _ => rfl⟩
    · rw [if_neg hname, if_neg hname]
      exact h.hasData
  · rw [onField_event, hfields, valuesOf_concat]
    by_cases hname : (fieldOf text).1 = "event".toList
    · rw [if_pos hname, if_pos hname, List.getLast?_concat, Option.getD_some]
    · rw [if_neg hname, if_neg hname, h.event]
  · rw [onField_data, hfields, valuesOf_concat]
    by_cases hname : (fieldOf text).1 = "data".toList
    · rw [if_pos hname, if_pos hname, List.flatMap_append, ← h.data, List.append_assoc,
        List.flatMap_singleton]
    · rw [if_neg hname, if_neg hname, h.data]

/-- A line that is not blank belongs to the current block. -/
theorem Reads.text {p : Parser} {before : List (List Char × List Char)}
    {block : List (List Char)} (h : Reads p before block) {text : List Char} (htext : text ≠ []) :
    (p.onText text []).2 = [] ∧ Reads (p.onText text []).1 before (block ++ [text]) := by
  obtain ⟨c, rest, rfl⟩ := List.exists_cons_of_ne_nil htext
  by_cases hc : c = ':'
  · subst hc
    have hcomment : fields (block ++ [':' :: rest]) = fields block := fields_comment block rest
    refine ⟨rfl, ?_⟩
    show Reads p before (block ++ [':' :: rest])
    constructor
    · rw [hcomment, h.lastId]
    · rw [hcomment, h.retry]
    · rw [hcomment, h.hasData]
    · rw [hcomment, h.event]
    · rw [hcomment, h.data]
  · have hhead : (c :: rest).head? ≠ some ':' := fun heq => hc (Option.some.inj heq)
    have honText : p.onText (c :: rest) [] =
        (p.onField (fieldOf (c :: rest)).1 (fieldOf (c :: rest)).2, []) := by
      unfold Parser.onText
      split
      · rename_i heq
        cases heq
      · rename_i heq
        exact absurd (List.cons.inj heq).1 hc
      · rfl
    rw [honText]
    exact ⟨rfl, h.field hhead⟩

/-! ### The whole stream -/

theorem decoded_valid {line : List UInt8} {text : List Char} (h : Utf8.decode line = some text)
    (lines : List (List UInt8)) : decoded (line :: lines) = text :: decoded lines := by
  unfold decoded
  rw [List.map_cons, h]
  rfl

theorem decoded_invalid {line : List UInt8} (h : Utf8.decode line = none)
    (lines : List (List UInt8)) : decoded (line :: lines) = [] := by
  unfold decoded
  rw [List.map_cons, h]
  rfl

/-- The texts that the parser reads from some lines. -/
def Parser.texts (p : Parser) (lines : List (List UInt8)) : List (List Char) :=
  if p.firstLine then stripMark (decoded lines) else decoded lines

theorem onLines_events {p : Parser} {before : List (List Char × List Char)}
    {block : List (List Char)} (h : Reads p before block) (lines : List (List UInt8)) :
    (p.onLines lines).map Prod.snd =
      if ∀ line ∈ lines, (Utf8.decode line).isSome then
        .ok (eventsOf before (blocks block (p.texts lines)))
      else .error (.protocol "invalid SSE UTF-8") := by
  induction lines generalizing p before block with
  | nil =>
    rw [if_pos (fun _ h => absurd h List.not_mem_nil)]
    unfold Parser.texts
    cases p.firstLine <;> rfl
  | cons line lines ih =>
    unfold Parser.onLines
    cases hd : Utf8.decode line with
    | none =>
      have hinvalid : ¬∀ l ∈ line :: lines, (Utf8.decode l).isSome := fun hall => by
        have hline := hall line List.mem_cons_self
        rw [hd] at hline
        exact absurd hline Bool.false_ne_true
      have honLine : ({ p with line := line } : Parser).onLine [] =
          .error (.protocol "invalid SSE UTF-8") := by
        unfold Parser.onLine
        rw [hd]
      rw [honLine, if_neg hinvalid]
      rfl
    | some text =>
      generalize htext : (if p.firstLine then stripChar '\uFEFF' text else text) = text'
      generalize hr : ({ p with line := [], firstLine := false } : Parser).onText text' [] = r
      have honLine : ({ p with line := line } : Parser).onLine [] = .ok r := by
        unfold Parser.onLine
        rw [hd, ← hr, ← htext]
      have htexts : p.texts (line :: lines) = text' :: decoded lines := by
        rw [← htext]
        unfold Parser.texts
        rw [decoded_valid hd]
        cases p.firstLine <;> rfl
      have hlater : r.1.texts lines = decoded lines := by
        have hfirst : r.1.firstLine = false := (onLine_ok honLine).2.2
        unfold Parser.texts
        rw [hfirst]
        rfl
      have hp : Reads { p with line := [], firstLine := false } before block :=
        ⟨h.lastId, h.retry, h.hasData, h.event, h.data⟩
      have hall : (∀ l ∈ line :: lines, (Utf8.decode l).isSome) ↔
          ∀ l ∈ lines, (Utf8.decode l).isSome := by
        rw [List.forall_mem_cons, hd]
        exact and_iff_right rfl
      -- The rest of the stream, read with what this line left.
      obtain ⟨before', block', hreads, hevents⟩ : ∃ before' block', Reads r.1 before' block' ∧
          eventsOf before (blocks block (text' :: decoded lines)) =
            r.2 ++ eventsOf before' (blocks block' (decoded lines)) := by
        by_cases hblank : text' = []
        · subst hblank
          obtain ⟨hevent, hreads⟩ := hp.blank
          rw [hr] at hevent hreads
          refine ⟨_, _, hreads, ?_⟩
          rw [hevent, blocks, eventsOf]
        · obtain ⟨hevent, hreads⟩ := hp.text hblank
          rw [hr] at hevent hreads
          refine ⟨_, _, hreads, ?_⟩
          rw [hevent, blocks, List.nil_append]
          exact fun h => hblank h
      rw [honLine, htexts, hevents]
      show Except.map Prod.snd (Except.map (later r.2) (r.1.onLines lines)) = _
      rw [map_later, ih hreads, hlater]
      by_cases hvalid : ∀ l ∈ lines, (Utf8.decode l).isSome
      · rw [if_pos hvalid, if_pos (hall.mpr hvalid)]
        rfl
      · rw [if_neg hvalid, if_neg (fun h => hvalid (hall.mp h))]
        rfl

/-- What `feed` makes of a stream that comes in one chunk. -/
theorem feed_outcome (stream : List UInt8) :
    (Parser.new.feed stream).map Prod.snd =
      if ValidLines stream then .ok (reference stream)
      else .error (.protocol "invalid SSE UTF-8") := by
  rw [feed_terminated rfl, onLines_events reads_new]
  rfl

/-- Every partition of a stream of valid lines into chunks gives the events of
    the reference decoder. -/
theorem feedAll_reference (chunks : List (List UInt8)) (h : ValidLines chunks.flatten) :
    (Parser.new.feedAll chunks).map Prod.snd = .ok (reference chunks.flatten) := by
  rw [feedAll_eq, feed_outcome, if_pos h]

theorem feedAll_reference_split :
    (Parser.new.feedAll [[0x64, 0x61, 0x74, 0x61, 0x3A, 0xC3], [0xA9, 13], [10, 13], [10]]).map
      Prod.snd = .ok [⟨"message".toList, "é".toList, [], none⟩] :=
  (feedAll_reference _ (by decide +kernel)).trans (by decide +kernel)

end Kyora.Sse
