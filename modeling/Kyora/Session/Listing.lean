import Kyora.Session.Basic
import Kyora.Trace.Readback

/-! # Listing session files

  A complete line adds to the summary what its event says; only a session_end
  changes the status. What follows the last newline adds nothing, wherever it was
  cut off.
-/

namespace Kyora.Session

open Trace
open Objects (Fields.get_cons Fields.get_nil)

/-! ### The value of a line -/

/-- The JSON value of a record's line. -/
def lineValue (c : Codec) (record : TraceRecord) : Option Json :=
  (record.fields c).map fun fields => storedValue c (.ofFields fields)

theorem writeRecord_eq (c : Codec) (record : TraceRecord) :
    writeRecord c record = (lineValue c record).map c.print := by
  rw [writeRecord, lineValue, Option.map_map]
  rfl

/-- A member of a line is the field of the event, unless it is the prompt. -/
theorem index_lineValue {c : Codec} {record : TraceRecord} {event : Kyora.Fields} {value : Json}
    (hvalue : lineValue c record = some value) (hevent : record.event.fields c = some event)
    {key : String} (hkey : key ∉ ["v", "seq", "ts", "prompt"]) :
    index value key = (event.get key).getD .null := by
  obtain ⟨fields, hfields, rfl⟩ := Option.map_eq_some_iff.mp hvalue
  have hlookup := object?_storedValue (fun members => members key) (c := c)
    (TraceRecord.keys_nodup hfields)
  have hget : index (storedValue c (.ofFields fields)) key =
      ((storedFields c fields).get key).getD .null := by
    rw [← hlookup]
    rfl
  simp only [List.mem_cons, List.not_mem_nil, or_false, not_or] at hkey
  obtain ⟨hv, hseq, hts, hprompt⟩ := hkey
  have hsame : storedMember c key = id := funext fun value => if_neg hprompt
  rw [hget, storedFields_get, hsame, Option.map_id, id]
  obtain ⟨own, hown, rfl⟩ := Option.map_eq_some_iff.mp hfields
  obtain rfl := Option.some.inj (hown.symm.trans hevent)
  simp [Fields.get_cons, hv, hseq, hts]

/-- The status after an event. -/
def statusAfter (status : String) : TraceEvent → String
  | .sessionEnd final => final.asStr
  | _ => status

/-- Records with other tags are passed over. -/
theorem noteRecord_other {value : Json} {tag : String}
    (htag : index value "type" = .string tag)
    (hnot : tag ∉ ["session_start", "session_end", "message"]) (previewChars : Nat)
    (summary : SessionSummary) : noteRecord previewChars summary value = some summary := by
  simp only [List.mem_cons, List.not_mem_nil, or_false, not_or] at hnot
  simp [noteRecord, htag, hnot]

/-- A written record never makes the listing fail. -/
theorem noteRecord_lineValue {c : Codec} {record : TraceRecord} {value : Json}
    (hvalue : lineValue c record = some value) (previewChars : Nat) (summary : SessionSummary) :
    ∃ summary', noteRecord previewChars summary value = some summary' ∧
      summary'.id = summary.id ∧ summary'.status = statusAfter summary.status record.event := by
  obtain ⟨fields, hfields, -⟩ := Option.map_eq_some_iff.mp hvalue
  obtain ⟨event, hevent, -⟩ := Option.map_eq_some_iff.mp hfields
  have hindex : ∀ key, key ∉ ["v", "seq", "ts", "prompt"] →
      index value key = (event.get key).getD .null :=
    fun key hkey => index_lineValue hvalue hevent hkey
  have htype := hindex "type" (by decide)
  have hother : ∀ tag, event.get "type" = some (.string tag) →
      tag ∉ ["session_start", "session_end", "message"] →
      noteRecord previewChars summary value = some summary := by
    intro tag htag hnot
    rw [htag] at htype
    exact noteRecord_other htype hnot previewChars summary
  cases hrecord : record.event with
  | sessionStart start =>
    rw [hrecord] at hevent
    obtain rfl := Option.some.inj hevent
    have htag : index value "type" = .string "session_start" := htype
    simp [noteRecord, htag, statusAfter]
  | sessionEnd status =>
    rw [hrecord] at hevent
    obtain rfl := Option.some.inj hevent
    have htag : index value "type" = .string "session_end" := htype
    have hstatus : index value "status" = .string status.asStr := by
      rw [hindex "status" (by decide)]
      simp [Fields.get_cons]
    simp [noteRecord, htag, hstatus, statusAfter]
  | message node message =>
    rw [hrecord] at hevent
    obtain rfl := Option.some.inj hevent
    have htag : index value "type" = .string "message" := htype
    have hmessage : index value "message" = message.json := by
      rw [hindex "message" (by decide)]
      simp [Fields.get_cons]
    simp only [noteRecord, htag, hmessage, Json.text?_string, Message.json?_json, Option.map_some,
      statusAfter]
    simp only [Option.some.injEq, String.reduceEq, if_false, true_and]
    split
    · split
      · exact ⟨_, rfl, rfl, rfl⟩
      · exact ⟨_, rfl, rfl, rfl⟩
    · exact ⟨_, rfl, rfl, rfl⟩
  | delta | streamReset =>
    rw [hrecord] at hevent
    cases hevent
  | nodeEnd outcome =>
    rw [hrecord] at hevent
    obtain ⟨own, -, rfl⟩ := Option.map_eq_some_iff.mp hevent
    exact ⟨summary, hother _ rfl (by decide), rfl, rfl⟩
  | _ =>
    rw [hrecord] at hevent
    obtain rfl := Option.some.inj hevent
    exact ⟨summary, hother _ rfl (by decide), rfl, rfl⟩

/-! ### Lines -/

/-- The bytes of complete lines. -/
def linesOf (lines : List String) : List UInt8 := lines.flatMap fun line => textOf line ++ [10]

theorem linesOf_append (lines lines' : List String) :
    linesOf (lines ++ lines') = linesOf lines ++ linesOf lines' := List.flatMap_append

/-- The newline of a file is that of a text. -/
theorem newline_not_mem {line : String} (h : '\n' ∉ line.toList) : 10 ∉ textOf line := by
  intro hmem
  obtain ⟨ch, hch, hcode⟩ := Utf8.mem_encode_ascii (by decide) hmem
  have hnewline : ch = '\n' := Char.toNat_inj.mp hcode
  exact h (hnewline ▸ hch)

/-- A complete line is parsed as its text. -/
theorem fromSlice_line (c : Codec) (line : String) :
    fromSlice c (textOf line ++ [10]) = c.parse (line ++ "\n") := by
  have hbytes : textOf line ++ [10] = Utf8.encode (line.toList ++ ['\n']) := by
    rw [Utf8.encode_append]
    rfl
  have htext : String.ofList (line.toList ++ ['\n']) = line ++ "\n" := by
    rw [String.ofList_append, String.ofList_toList]
  rw [fromSlice, hbytes, Utf8.decode_encode, Option.bind_some, htext]

section readLines

variable {c : Codec} {previewChars : Nat}

/-- Without a newline there is no line. -/
theorem readLines_rest {rest : List UInt8} (h : 10 ∉ rest) (summary : SessionSummary) :
    ∀ part, readLines c previewChars summary part rest = some summary := by
  induction rest with
  | nil => exact fun _ => rfl
  | cons byte rest ih =>
    intro part
    rw [List.mem_cons, not_or] at h
    rw [readLines, if_neg (Ne.symm h.1)]
    exact ih h.2 _

theorem readLines_line {text : List UInt8} (h : 10 ∉ text) (summary : SessionSummary)
    (rest : List UInt8) :
    ∀ part, readLines c previewChars summary part (text ++ 10 :: rest) =
      ((fromSlice c (part ++ text ++ [10])).bind (noteRecord previewChars summary)).bind
        fun summary => readLines c previewChars summary [] rest := by
  induction text with
  | nil =>
    intro part
    rw [List.nil_append, readLines, if_pos rfl, List.append_nil]
  | cons byte text ih =>
    intro part
    rw [List.mem_cons, not_or] at h
    rw [List.cons_append, readLines, if_neg (Ne.symm h.1), ih h.2, List.append_assoc part [byte]]
    rfl

/-- One complete line after the other. -/
theorem readLines_linesOf {lines : List String} (h : ∀ line ∈ lines, '\n' ∉ line.toList)
    (rest : List UInt8) (summary : SessionSummary) :
    readLines c previewChars summary [] (linesOf lines ++ rest) =
      (lines.foldlM (fun summary line =>
        (c.parse (line ++ "\n")).bind (noteRecord previewChars summary)) summary).bind
        fun summary => readLines c previewChars summary [] rest := by
  induction lines generalizing summary with
  | nil => rfl
  | cons line lines ih =>
    have hline := newline_not_mem (h line List.mem_cons_self)
    have hsplit : linesOf (line :: lines) ++ rest =
        textOf line ++ 10 :: (linesOf lines ++ rest) := by
      simp [linesOf]
    rw [hsplit, readLines_line hline, List.nil_append, fromSlice_line, List.foldlM_cons]
    cases (c.parse (line ++ "\n")).bind (noteRecord previewChars summary) with
    | none => rfl
    | some summary' => exact ih (fun line hmem => h line (List.mem_cons_of_mem _ hmem)) summary'

end readLines

/-! ### Complete records -/

/-- What the JSON library does with the lines of some records. -/
structure Library (c : Codec) (records : List TraceRecord) : Prop where
  /-- Compact output escapes every line break. -/
  compact : ∀ record ∈ records, ∀ value, lineValue c record = some value →
    '\n' ∉ (c.print value).toList
  /-- White space may follow a text; what nests too deep is not read. -/
  parse : ∀ record ∈ records, ∀ value, lineValue c record = some value →
    c.parse (c.print value ++ "\n") =
      if nestsWithin (recursionLimit - 1) value then some value else none

/-- The line of a record nests no deeper than the JSON library reads. -/
def Shallow (c : Codec) (record : TraceRecord) : Prop :=
  ∀ value, lineValue c record = some value → nestsWithin (recursionLimit - 1) value = true

/-- The status of the last session_end. -/
def statusOf (records : List TraceRecord) : String :=
  records.foldl (fun status record => statusAfter status record.event) "interrupted"

/-- Complete lines are read if and only if none of them nests too deep. -/
theorem foldlM_note_iff {c : Codec} {records : List TraceRecord} (h : Library c records)
    {lines : List String} (hlines : records.map (writeRecord c) = lines.map some)
    (previewChars : Nat) (summary : SessionSummary) :
    (∃ summary', lines.foldlM (fun summary line =>
        (c.parse (line ++ "\n")).bind (noteRecord previewChars summary)) summary =
          some summary' ∧ summary'.id = summary.id ∧
      summary'.status = records.foldl (fun status record =>
        statusAfter status record.event) summary.status) ∧
      (∀ record ∈ records, Shallow c record) ∨
    lines.foldlM (fun summary line =>
        (c.parse (line ++ "\n")).bind (noteRecord previewChars summary)) summary = none ∧
      ∃ record ∈ records, ¬Shallow c record := by
  induction records generalizing lines summary with
  | nil =>
    obtain rfl : lines = [] := by simpa using hlines.symm
    exact Or.inl ⟨⟨summary, rfl, rfl, rfl⟩, by simp⟩
  | cons record records ih =>
    cases lines with
    | nil => cases hlines
    | cons line lines =>
      simp only [List.map_cons, List.cons.injEq] at hlines
      obtain ⟨hfirst, hrest⟩ := hlines
      rw [writeRecord_eq] at hfirst
      obtain ⟨value, hvalue, rfl⟩ := Option.map_eq_some_iff.mp hfirst
      have hparse := h.parse record List.mem_cons_self value hvalue
      have hlibrary : Library c records :=
        ⟨fun r hr => h.compact r (List.mem_cons_of_mem record hr),
          fun r hr => h.parse r (List.mem_cons_of_mem record hr)⟩
      rw [List.foldlM_cons, hparse]
      by_cases hnests : nestsWithin (recursionLimit - 1) value = true
      · have hshallow : Shallow c record := by
          intro value' hvalue'
          obtain rfl := Option.some.inj (hvalue.symm.trans hvalue')
          exact hnests
        obtain ⟨next, hnote, hid, hstatus⟩ := noteRecord_lineValue hvalue previewChars summary
        rw [if_pos hnests, Option.bind_some, hnote, List.foldl_cons, ← hstatus, ← hid]
        rcases ih hlibrary hrest next with ⟨hread, hall⟩ | ⟨hnone, r, hr, hdeep⟩
        · exact Or.inl ⟨hread, List.forall_mem_cons.mpr ⟨hshallow, hall⟩⟩
        · exact Or.inr ⟨hnone, r, List.mem_cons_of_mem record hr, hdeep⟩
      · rw [if_neg hnests]
        refine Or.inr ⟨rfl, record, List.mem_cons_self, ?_⟩
        exact fun hshallow => hnests (hshallow value hvalue)

/-- A file of complete lines and a piece without a newline. -/
theorem readSession_cases {c : Codec} {records : List TraceRecord} (h : Library c records)
    {lines : List String} (hlines : records.map (writeRecord c) = lines.map some)
    {rest : List UInt8} (hrest : 10 ∉ rest) (previewChars : Nat) (id : String) :
    (∃ summary, readSession c previewChars id (linesOf lines ++ rest) = some summary ∧
        summary.id = id ∧ summary.status = statusOf records) ∧
      (∀ record ∈ records, Shallow c record) ∨
    readSession c previewChars id (linesOf lines ++ rest) = none ∧
      ∃ record ∈ records, ¬Shallow c record := by
  have hcompact : ∀ line ∈ lines, '\n' ∉ line.toList := by
    intro line hline
    have hmem : some line ∈ records.map (writeRecord c) := by
      rw [hlines]
      exact List.mem_map_of_mem hline
    obtain ⟨record, hrecord, hwrite⟩ := List.mem_map.mp hmem
    rw [writeRecord_eq] at hwrite
    obtain ⟨value, hvalue, rfl⟩ := Option.map_eq_some_iff.mp hwrite
    exact h.compact record hrecord value hvalue
  rw [readSession, readLines_linesOf hcompact]
  rcases foldlM_note_iff h hlines previewChars ⟨id, "", "interrupted", ""⟩ with
    ⟨⟨summary, hfold, hid, hstatus⟩, hall⟩ | ⟨hnone, hdeep⟩
  · refine Or.inl ⟨⟨summary, ?_, hid, hstatus⟩, hall⟩
    rw [hfold, Option.bind_some]
    exact readLines_rest hrest summary []
  · exact Or.inr ⟨by rw [hnone]; rfl, hdeep⟩

/-- The listing has the summary of every session if it can read them all. -/
theorem listWithPreview_of_forall {c : Codec} {previewChars : Nat}
    {home : List (String × List UInt8)}
    (h : ∀ session ∈ home, (readSession c previewChars session.1 session.2).isSome) :
    ∃ summaries, listWithPreview c previewChars home = some summaries ∧
      ∀ session ∈ home, ∃ summary ∈ summaries,
        readSession c previewChars session.1 session.2 = some summary := by
  have hmapM : ∃ summaries,
      (home.mapM fun session => readSession c previewChars session.1 session.2) = some summaries ∧
      ∀ session ∈ home, ∃ summary ∈ summaries,
        readSession c previewChars session.1 session.2 = some summary := by
    induction home with
    | nil => exact ⟨[], rfl, by simp⟩
    | cons session home ih =>
      obtain ⟨summary, hsummary⟩ := Option.isSome_iff_exists.mp (h session List.mem_cons_self)
      obtain ⟨summaries, hrest, hall⟩ := ih fun x hx => h x (List.mem_cons_of_mem session hx)
      refine ⟨summary :: summaries, by simp [List.mapM_cons, hsummary, hrest], ?_⟩
      intro x hx
      obtain rfl | hx := List.mem_cons.mp hx
      · exact ⟨summary, List.mem_cons_self, hsummary⟩
      · obtain ⟨found, hmem, hfound⟩ := hall x hx
        exact ⟨found, List.mem_cons_of_mem summary hmem, hfound⟩
  obtain ⟨summaries, hread, hall⟩ := hmapM
  refine ⟨_, by rw [listWithPreview, hread]; rfl, ?_⟩
  intro session hsession
  obtain ⟨summary, hmem, hsummary⟩ := hall session hsession
  exact ⟨summary, List.mem_mergeSort.mpr hmem, hsummary⟩

end Kyora.Session
