import Kyora.Session.Listing

/-! # Interrupted sessions

  Wherever a write fails or the process stops, the file is made of the lines of
  the acknowledged records and at most one further piece, and nothing follows a
  failure. The listing reads every such file as long as no complete line nests
  deeper than the JSON library reads.
-/

namespace Kyora.Session

open Trace

/-! ### What a session should leave -/

/-- The record whose operations ended early. -/
def Writer.further (w : Writer) : List TraceRecord := (w.torn.map Prod.fst).toList

/-- What is left of it. -/
def Writer.rest (w : Writer) : List UInt8 := (w.torn.map Prod.snd).getD []

/-- The records whose line is complete, newline and all. -/
def Writer.complete (w : Writer) : List TraceRecord :=
  w.records ++ if w.rest.getLast? = some 10 then w.further else []

/-- A call that hands over a record for the file. -/
def Call.Persistent : Call → Prop
  | .emit e => e.event.ephemeral = false
  | .finish _ => False

/-- The events of the emits that returned without an error, in order. -/
def acknowledged : List Call → List (Except String Unit) → List TraceEvent
  | .emit e :: calls, .ok () :: replies =>
    if e.event.ephemeral then acknowledged calls replies
    else e.event :: acknowledged calls replies
  | _ :: calls, _ :: replies => acknowledged calls replies
  | _, _ => []

/-- A crash-consistent session. -/
structure CrashConsistent (c : Codec) (calls : List Call) (stop : Option Stop) : Prop where
  /-- The lines are those of the acknowledged records, in the order of the emits. -/
  emitted : (sessionOf c calls stop).records.map TraceRecord.event =
    acknowledged calls (Writer.new.run c calls).2
  numbered : (sessionOf c calls stop).records.map TraceRecord.seq =
    (List.range (sessionOf c calls stop).records.length).map some
  /-- At most one further record or a fragment of it follows. -/
  file : ∃ lines, (sessionOf c calls stop).records.map (writeRecord c) = lines.map some ∧
    ∃ rest, (sessionOf c calls stop).file = linesOf lines ++ rest ∧
      (rest = [] ∨ ∃ further line, writeRecord c further = some line ∧
        further.seq = some (sessionOf c calls stop).records.length ∧
        rest <+: textOf line ++ [10])
  /-- Nothing is appended after a failure. -/
  latched : ∀ before after, calls = before ++ after →
    (Writer.new.run c before).1.failed.isSome →
    (sessionOf c calls stop).file = (Writer.new.run c before).1.file
  /-- Every later emit and the finish fail. -/
  refused : ∀ before call after, calls = before ++ call :: after →
    (Writer.new.run c before).1.failed.isSome →
    (call.Persistent ∨ (∃ error, call = .finish error) ∧ (Writer.new.run c before).1.running) →
    ∃ error, ((Writer.new.run c before).1.call c call).2 = .error error
  /-- The listing succeeds with this file, and reports its status. -/
  listed : ∀ previewChars id home, (id, (sessionOf c calls stop).file) ∈ home →
    (∀ session ∈ home, session ≠ (id, (sessionOf c calls stop).file) →
      (readSession c previewChars session.1 session.2).isSome) →
    ∃ summaries, listWithPreview c previewChars home = some summaries ∧
      ∃ summary ∈ summaries, summary.id = id ∧
        summary.status = statusOf (sessionOf c calls stop).complete

/-! ### The writer -/

/-- What a record can leave when its operations end early. -/
def Piece (c : Codec) (record : TraceRecord) (bytes : List UInt8) : Prop :=
  bytes = [] ∨ ∃ line, writeRecord c record = some line ∧ bytes <+: textOf line ++ [10]

/-- A record is appended with its newline, or ends early. -/
theorem appendRecord_cases (c : Codec) (record : TraceRecord) (fault : Option Fault)
    (error : String) :
    (∃ line, writeRecord c record = some line ∧ fault = none ∧
      appendRecord c record fault error = (textOf line ++ [10], .ok ())) ∨
    (writeRecord c record = none ∨ fault ≠ none) ∧
      ∃ bytes, Piece c record bytes ∧
        appendRecord c record fault error = (bytes, .error error) := by
  unfold appendRecord
  cases hline : writeRecord c record with
  | none => exact Or.inr ⟨Or.inl rfl, [], Or.inl rfl, rfl⟩
  | some line =>
    cases fault with
    | none => exact Or.inl ⟨line, rfl, rfl, rfl⟩
    | some fault =>
      refine Or.inr ⟨Or.inr (by simp), fault.left (textOf line), Or.inr ⟨line, hline, ?_⟩, rfl⟩
      cases fault with
      | blob => exact List.nil_prefix
      | text count => exact (List.take_prefix count _).trans (List.prefix_append _ _)
      | newline => exact List.prefix_append _ _
      | flush => exact List.prefix_rfl

namespace Writer

theorem run_append (c : Codec) (w : Writer) (before after : List Call) :
    w.run c (before ++ after) =
      (((w.run c before).1.run c after).1,
        (w.run c before).2 ++ ((w.run c before).1.run c after).2) := by
  induction before generalizing w with
  | nil => rfl
  | cons first before ih =>
    rw [List.cons_append, run, run, ih]
    rfl

/-- How the writer takes an event: it refuses it, writes its line, or fails and
    leaves a piece of it. -/
theorem handle_cases (c : Codec) (w : Writer) (e : Handed) :
    (∃ error, w.failed = some error ∧ w.handle c e = (w, .error error)) ∨
    (w.failed = none ∧ ∃ line,
      writeRecord c (.new e.event (some w.seq) e.ts) = some line ∧ e.fault = none ∧
      w.handle c e = ({ w with
        file := w.file ++ (textOf line ++ [10])
        seq := w.seq + 1
        records := w.records ++ [.new e.event (some w.seq) e.ts] }, .ok ())) ∨
    (w.failed = none ∧
      (writeRecord c (.new e.event (some w.seq) e.ts) = none ∨ e.fault ≠ none) ∧
      ∃ bytes, Piece c (.new e.event (some w.seq) e.ts) bytes ∧
        w.handle c e = ({ w with
          file := w.file ++ bytes
          failed := some e.error
          torn := some (.new e.event (some w.seq) e.ts, bytes) }, .error e.error)) := by
  unfold handle
  cases hfailed : w.failed with
  | some error => exact Or.inl ⟨error, rfl, rfl⟩
  | none =>
    refine Or.inr ?_
    obtain ⟨line, hline, hfault, heq⟩ | ⟨hreason, bytes, hpiece, heq⟩ :=
      appendRecord_cases c (.new e.event (some w.seq) e.ts) e.fault e.error
    · exact Or.inl ⟨rfl, line, hline, hfault, by simp only [heq]⟩
    · exact Or.inr ⟨rfl, hreason, bytes, hpiece, by simp only [heq]⟩

/-- The writer without its bytes. -/
def session (c : Codec) (w : Writer) : Trace.Session :=
  ⟨w.seq, w.failed.isSome, w.records, w.records.filterMap (writeRecord c)⟩

/-- An event is taken as by a writer of whole lines. -/
theorem handle_session (c : Codec) (w : Writer) (e : Handed) :
    (w.handle c e).1.session c =
      ((w.session c).write c ⟨e.event, e.ts, e.fault.isNone⟩).1 := by
  rcases handle_cases c w e with
    ⟨error, hfailed, heq⟩ | ⟨hfailed, line, hline, hfault, heq⟩ | ⟨hfailed, hreason, bytes, -, heq⟩
  · simp [heq, Trace.Session.write, session, hfailed]
  · simp [heq, Trace.Session.write, session, hfailed, hline, hfault]
  · rcases hreason with hline | hfault
    · simp [heq, Trace.Session.write, session, hfailed, hline]
    · cases hline : writeRecord c (.new e.event (some w.seq) e.ts) <;>
        simp [heq, Trace.Session.write, session, hfailed, hline, Option.isNone_iff_eq_none, hfault]

/-! ### What the writer keeps -/

/-- The file of a writer, in terms of its records. -/
structure Sound (c : Codec) (w : Writer) : Prop where
  written : (w.session c).Written c
  file : w.file = linesOf (w.records.filterMap (writeRecord c)) ++ w.rest
  piece : ∀ x ∈ w.torn, x.1.seq = some w.records.length ∧ Piece c x.1 x.2
  /-- Only a failure leaves a piece. -/
  whole : w.failed = none → w.torn = none

theorem sound_new (c : Codec) : Sound c .new :=
  ⟨Trace.Session.written_empty c, rfl, by simp [new], fun _ => rfl⟩

theorem sound_handle {c : Codec} {w : Writer} (h : Sound c w) {e : Handed}
    (hpersistent : e.event.ephemeral = false) : Sound c (w.handle c e).1 := by
  have hwritten : ((w.handle c e).1.session c).Written c := by
    have hemit := Trace.Session.written_emit h.written ⟨e.event, e.ts, e.fault.isNone⟩
    rw [Trace.Session.emit, if_neg (by simp [hpersistent])] at hemit
    rw [handle_session]
    exact hemit
  rcases handle_cases c w e with
    ⟨error, -, heq⟩ | ⟨hfailed, line, hline, -, heq⟩ | ⟨hfailed, -, bytes, hpiece, heq⟩
  · rw [heq]
    exact h
  · rw [heq] at hwritten ⊢
    have hrest : w.rest = [] := by rw [rest, h.whole hfailed]; rfl
    refine ⟨hwritten, ?_, ?_, fun _ => h.whole hfailed⟩
    · show w.file ++ (textOf line ++ [10]) =
        linesOf ((w.records ++ [_]).filterMap (writeRecord c)) ++ w.rest
      rw [h.file, hrest, List.filterMap_append, linesOf_append]
      simp [linesOf, hline]
    · intro x hx
      exact absurd hx (by simp [h.whole hfailed])
  · rw [heq] at hwritten ⊢
    have hrest : w.rest = [] := by rw [rest, h.whole hfailed]; rfl
    refine ⟨hwritten, ?_, ?_, fun hnone => absurd hnone (by simp)⟩
    · show w.file ++ bytes = linesOf (w.records.filterMap (writeRecord c)) ++ bytes
      rw [h.file, hrest, List.append_nil]
    · intro x hx
      obtain rfl := Option.some.inj hx
      exact ⟨congrArg some h.written.next, hpiece⟩

theorem sound_call {c : Codec} {w : Writer} (h : Sound c w) (call : Call) :
    Sound c (w.call c call).1 := by
  cases call with
  | emit e =>
    rw [Writer.call]
    split
    · exact h
    · next hpersistent =>
      split
      · exact h
      · exact sound_handle h (by simpa using hpersistent)
  | finish error =>
    rw [Writer.call]
    split
    · exact h
    · exact ⟨h.written, h.file, h.piece, h.whole⟩

theorem sound_run {c : Codec} {w : Writer} (h : Sound c w) (calls : List Call) :
    Sound c (w.run c calls).1 := by
  induction calls generalizing w with
  | nil => exact h
  | cons first calls ih => exact ih (sound_call h first)

/-! ### After a failure -/

/-- A failed writer stays as it is. -/
theorem call_failed {c : Codec} {w : Writer} (hfailed : w.failed.isSome) (call : Call) :
    (w.call c call).1.file = w.file ∧ (w.call c call).1.failed = w.failed ∧
      (call.Persistent ∨ (∃ error, call = .finish error) ∧ w.running →
        ∃ error, (w.call c call).2 = .error error) := by
  obtain ⟨first, hfirst⟩ := Option.isSome_iff_exists.mp hfailed
  cases call with
  | emit e =>
    have hhandle : w.handle c e = (w, .error first) := by
      unfold handle
      rw [hfirst]
    rw [Writer.call]
    by_cases hephemeral : e.event.ephemeral
    · simp [hephemeral, Call.Persistent]
    · by_cases hrunning : w.running
      · simp [hephemeral, hrunning, hhandle]
      · simp [hephemeral, hrunning]
  | finish error =>
    rw [Writer.call]
    by_cases hrunning : w.running
    · simp [hrunning, flushed, hfirst]
    · simp [hrunning, Call.Persistent]

theorem run_failed {c : Codec} {w : Writer} (hfailed : w.failed.isSome) (calls : List Call) :
    (w.run c calls).1.file = w.file ∧ (w.run c calls).1.failed = w.failed := by
  induction calls generalizing w with
  | nil => exact ⟨rfl, rfl⟩
  | cons first calls ih =>
    obtain ⟨hfile, hsame, -⟩ := call_failed (c := c) hfailed first
    obtain ⟨hrest, hlast⟩ := ih (hsame ▸ hfailed)
    exact ⟨hrest.trans hfile, hlast.trans hsame⟩

/-! ### Acknowledgements -/

theorem acknowledged_cons (first : Call) (calls : List Call) (reply : Except String Unit)
    (replies : List (Except String Unit)) :
    acknowledged (first :: calls) (reply :: replies) =
      acknowledged [first] [reply] ++ acknowledged calls replies := by
  cases first with
  | emit e =>
    cases reply with
    | ok u => by_cases hephemeral : e.event.ephemeral <;> simp [acknowledged, hephemeral]
    | error error => simp [acknowledged]
  | finish error => simp [acknowledged]

/-- An emit without an error has written its record. -/
theorem run_acknowledged (c : Codec) (w : Writer) (calls : List Call) :
    (w.run c calls).1.records.map TraceRecord.event =
      w.records.map TraceRecord.event ++ acknowledged calls (w.run c calls).2 := by
  induction calls generalizing w with
  | nil => simp [run, acknowledged]
  | cons first calls ih =>
    have hfirst : ((w.call c first).1).records.map TraceRecord.event =
        w.records.map TraceRecord.event ++ acknowledged [first] [(w.call c first).2] := by
      cases first with
      | emit e =>
        rw [Writer.call]
        by_cases hephemeral : e.event.ephemeral
        · simp [hephemeral, acknowledged]
        · by_cases hrunning : w.running
          · rcases handle_cases c w e with ⟨error, -, heq⟩ | ⟨-, line, -, -, heq⟩ |
              ⟨-, -, bytes, -, heq⟩
            · simp [hephemeral, hrunning, heq, acknowledged]
            · simp [hephemeral, hrunning, heq, acknowledged, TraceRecord.new]
            · simp [hephemeral, hrunning, heq, acknowledged]
          · simp [hephemeral, hrunning, acknowledged]
      | finish error =>
        rw [Writer.call]
        by_cases hrunning : w.running
        · simp [hrunning, acknowledged]
        · simp [hrunning, acknowledged]
    rw [run]
    simp only
    rw [ih, hfirst, List.append_assoc, acknowledged_cons first calls]

/-! ### The process stops -/

/-- What a stopped process leaves of one record. -/
theorem stopped_cases (c : Codec) (w : Writer) (stop : Option Stop) :
    w.stopped c stop = w ∨ w.failed = none ∧ ∃ record bytes, record.seq = some w.seq ∧
      Piece c record bytes ∧
      w.stopped c stop = { w with file := w.file ++ bytes, torn := some (record, bytes) } := by
  cases stop with
  | none => exact Or.inl rfl
  | some stop =>
    rw [stopped]
    split
    · exact Or.inl rfl
    · next hwrites =>
      simp only [Bool.or_eq_true, not_or, Option.not_isSome_iff_eq_none] at hwrites
      refine Or.inr ⟨hwrites.2, _, _, rfl, ?_, rfl⟩
      rcases appendRecord_cases c (.new stop.event (some w.seq) stop.ts) (some stop.point) "" with
        ⟨line, -, hfault, -⟩ | ⟨-, bytes, hpiece, heq⟩
      · cases hfault
      · rw [heq]
        exact hpiece

/-- The file of a stopped process, in terms of its records. -/
structure Stopped (c : Codec) (w : Writer) : Prop where
  written : (w.session c).Written c
  file : w.file = linesOf (w.records.filterMap (writeRecord c)) ++ w.rest
  piece : ∀ x ∈ w.torn, x.1.seq = some w.records.length ∧ Piece c x.1 x.2

theorem stopped_sound {c : Codec} {w : Writer} (h : Sound c w) (stop : Option Stop) :
    Stopped c (w.stopped c stop) := by
  rcases stopped_cases c w stop with heq | ⟨hfailed, record, bytes, hseq, hpiece, heq⟩
  · rw [heq]
    exact ⟨h.written, h.file, h.piece⟩
  · rw [heq]
    have hrest : w.rest = [] := by rw [rest, h.whole hfailed]; rfl
    refine ⟨h.written, ?_, ?_⟩
    · show w.file ++ bytes = linesOf (w.records.filterMap (writeRecord c)) ++ bytes
      rw [h.file, hrest, List.append_nil]
    · intro x hx
      obtain rfl := Option.some.inj hx
      exact ⟨hseq.trans (congrArg some h.written.next), hpiece⟩

end Writer

theorem sessionOf_stopped (c : Codec) (calls : List Call) (stop : Option Stop) :
    Writer.Stopped c (sessionOf c calls stop) :=
  Writer.stopped_sound (Writer.sound_run (Writer.sound_new c) calls) stop

theorem sessionOf_records (c : Codec) (calls : List Call) (stop : Option Stop) :
    (sessionOf c calls stop).records = (Writer.new.run c calls).1.records := by
  rcases Writer.stopped_cases c (Writer.new.run c calls).1 stop with
    heq | ⟨-, record, bytes, -, -, heq⟩
  · rw [sessionOf, heq]
  · rw [sessionOf, heq]

/-! ### The file and its complete lines -/

namespace Writer

theorem complete_subset (w : Writer) : ∀ record ∈ w.complete, record ∈ w.records ++ w.further := by
  intro record hrecord
  rw [complete] at hrecord
  rcases List.mem_append.mp hrecord with hold | hnew
  · exact List.mem_append_left _ hold
  · by_cases hlast : w.rest.getLast? = some 10
    · rw [if_pos hlast] at hnew
      exact List.mem_append_right _ hnew
    · rw [if_neg hlast] at hnew
      exact absurd hnew List.not_mem_nil

/-- The file is the lines of its complete records and a piece without a newline. -/
theorem Stopped.complete_lines {c : Codec} {w : Writer} (h : Stopped c w)
    (hlibrary : Library c (w.records ++ w.further)) :
    ∃ lines rest, w.complete.map (writeRecord c) = lines.map some ∧
      w.file = linesOf lines ++ rest ∧ 10 ∉ rest := by
  have hlines : w.records.map (writeRecord c) =
      (w.records.filterMap (writeRecord c)).map some := h.written.lines
  cases htorn : w.torn with
  | none =>
    have hrest : w.rest = [] := by rw [rest, htorn]; rfl
    refine ⟨w.records.filterMap (writeRecord c), [], ?_, ?_, List.not_mem_nil⟩
    · rw [complete, hrest]
      simpa using hlines
    · rw [h.file, hrest]
  | some x =>
    obtain ⟨record, bytes⟩ := x
    have hrest : w.rest = bytes := by rw [rest, htorn]; rfl
    have hfurther : w.further = [record] := by rw [further, htorn]; rfl
    have hempty : bytes = [] → ∃ lines rest, w.complete.map (writeRecord c) = lines.map some ∧
        w.file = linesOf lines ++ rest ∧ 10 ∉ rest := by
      rintro rfl
      refine ⟨w.records.filterMap (writeRecord c), [], ?_, ?_, List.not_mem_nil⟩
      · rw [complete, hrest]
        simpa using hlines
      · rw [h.file, hrest]
    have hpiece : Piece c record bytes := (h.piece _ htorn).2
    rcases hpiece with hnil | ⟨line, hline, hprefix⟩
    · exact hempty hnil
    · have hcompact : 10 ∉ textOf line := by
        rw [writeRecord_eq] at hline
        obtain ⟨value, hvalue, rfl⟩ := Option.map_eq_some_iff.mp hline
        refine newline_not_mem (hlibrary.compact record ?_ value hvalue)
        rw [hfurther]
        exact List.mem_append_right _ List.mem_cons_self
      -- a prefix of the line has its newline exactly when it is the whole of it
      rcases List.prefix_concat_iff.mp hprefix with hwhole | hpart
      · refine ⟨w.records.filterMap (writeRecord c) ++ [line], [], ?_, ?_, List.not_mem_nil⟩
        · rw [complete, hrest, hwhole, List.getLast?_concat, if_pos rfl, hfurther, List.map_append,
            List.map_append]
          exact congrArg₂ (· ++ ·) hlines (congrArg (· :: []) hline)
        · rw [h.file, hrest, hwhole, linesOf_append]
          simp [linesOf]
      · have hno : 10 ∉ bytes := fun hmem => hcompact (hpart.subset hmem)
        refine ⟨w.records.filterMap (writeRecord c), bytes, ?_, by rw [h.file, hrest], hno⟩
        have hlast : bytes.getLast? ≠ some 10 := fun hlast => hno (List.mem_of_getLast? hlast)
        rw [complete, hrest, if_neg hlast]
        simpa using hlines

end Writer

/-- A session is crash-consistent exactly if no complete line of its file nests
    deeper than the JSON library reads. -/
theorem crashConsistent_iff {c : Codec} {calls : List Call} {stop : Option Stop}
    (h : Library c ((sessionOf c calls stop).records ++ (sessionOf c calls stop).further)) :
    CrashConsistent c calls stop ↔
      ∀ record ∈ (sessionOf c calls stop).complete, Shallow c record := by
  have hstopped := sessionOf_stopped c calls stop
  obtain ⟨lines, rest, hlines, hfile, hrest⟩ := hstopped.complete_lines h
  have hlibrary : Library c (sessionOf c calls stop).complete := by
    have hsubset := (sessionOf c calls stop).complete_subset
    exact ⟨fun r hr => h.compact r (hsubset r hr), fun r hr => h.parse r (hsubset r hr)⟩
  have hread := fun previewChars id =>
    readSession_cases hlibrary hlines hrest previewChars id
  rw [← hfile] at hread
  constructor
  · intro hconsistent
    obtain ⟨summaries, hlist, -⟩ := hconsistent.listed 0 "" [("", (sessionOf c calls stop).file)]
      List.mem_cons_self (by simp)
    rcases hread 0 "" with ⟨-, hall⟩ | ⟨hnone, -⟩
    · exact hall
    · -- the one session of the listing is not read
      simp [listWithPreview, List.mapM_cons, hnone] at hlist
  · intro hshallow
    have hreads : ∀ previewChars id, ∃ summary,
        readSession c previewChars id (sessionOf c calls stop).file = some summary ∧
          summary.id = id ∧ summary.status = statusOf (sessionOf c calls stop).complete := by
      intro previewChars id
      rcases hread previewChars id with ⟨hsome, -⟩ | ⟨-, record, hmem, hdeep⟩
      · exact hsome
      · exact absurd (hshallow record hmem) hdeep
    refine ⟨?_, hstopped.written.numbered, ?_, ?_, ?_, ?_⟩
    · rw [sessionOf_records, Writer.run_acknowledged]
      rfl
    · refine ⟨_, hstopped.written.lines, _, hstopped.file, ?_⟩
      cases htorn : (sessionOf c calls stop).torn with
      | none => exact Or.inl (by rw [Writer.rest, htorn]; rfl)
      | some x =>
        obtain ⟨hseq, hpiece⟩ := hstopped.piece x htorn
        have hleft : (sessionOf c calls stop).rest = x.2 := by rw [Writer.rest, htorn]; rfl
        rw [hleft]
        rcases hpiece with hnil | ⟨line, hline, hprefix⟩
        · exact Or.inl hnil
        · exact Or.inr ⟨x.1, line, hline, hseq, hprefix⟩
    · rintro before after rfl hfailed
      obtain ⟨hsame, hlast⟩ := Writer.run_failed (c := c) hfailed after
      rw [sessionOf, Writer.run_append]
      rcases Writer.stopped_cases c (((Writer.new.run c before).1.run c after).1) stop with
        heq | ⟨hnone, -⟩
      · rw [heq]
        exact hsame
      · rw [hlast] at hnone
        exact absurd hfailed (by simp [hnone])
    · rintro before call after - hfailed hcall
      exact (Writer.call_failed hfailed call).2.2 hcall
    · intro previewChars id home hmem hothers
      obtain ⟨summary, hsummary, hid, hstatus⟩ := hreads previewChars id
      have hall : ∀ session ∈ home, (readSession c previewChars session.1 session.2).isSome := by
        intro session hsession
        by_cases hown : session = (id, (sessionOf c calls stop).file)
        · rw [hown, hsummary]
          rfl
        · exact hothers session hsession hown
      obtain ⟨summaries, hlist, hfound⟩ := listWithPreview_of_forall hall
      obtain ⟨found, hfoundMem, hfoundEq⟩ := hfound _ hmem
      rw [hsummary] at hfoundEq
      obtain rfl := Option.some.inj hfoundEq
      exact ⟨summaries, hlist, summary, hfoundMem, hid, hstatus⟩

/-! ### Two sessions of one record -/

/-- The libraries on a file of one line. -/
def oneLine (line : String) (value : Option Json) : Codec where
  print
    | .object _ => line
    | _ => "null"
  parse text := if text = line ++ "\n" then value else none
  printTime _ := ""
  parseTime _ := none
  digest := id

/-- The members of a line are those of its fields, each with a level less. -/
theorem nestsWithin_storedValue (c : Codec) (levels : Nat) (fields : Kyora.Fields) :
    nestsWithin (levels + 1) (storedValue c (.ofFields fields)) =
      (fields.filterMap Objects.Fields.member?).all fun member =>
        nestsWithin levels (storedMember c member.1 member.2) := by
  have hperm := List.mergeSort_perm (fields.filterMap Objects.Fields.member?)
    fun a b : String × Json => decide (a.1 ≤ b.1)
  rw [Bool.eq_iff_iff]
  simp only [storedValue, Json.ofFields, Objects.Fields.members, nestsWithin, List.all_map,
    List.all_eq_true, Function.comp_apply]
  exact forall_congr' fun member => imp_congr hperm.mem_iff Iff.rfl

/-- The library on the line of one record. -/
theorem oneLine_library {line : String} {record : TraceRecord} {fields : Kyora.Fields}
    {value : Option Json} (hcompact : '\n' ∉ line.toList)
    (hfields : record.fields (oneLine line value) = some fields)
    (hvalue : value = if nestsWithin (recursionLimit - 1)
        (storedValue (oneLine line value) (.ofFields fields)) then
      some (storedValue (oneLine line value) (.ofFields fields)) else none) :
    Library (oneLine line value) [record] := by
  constructor
  · intro r hr found hfound
    obtain rfl := List.mem_singleton.mp hr
    rw [lineValue, hfields] at hfound
    obtain rfl := Option.some.inj hfound
    exact hcompact
  · intro r hr found hfound
    obtain rfl := List.mem_singleton.mp hr
    rw [lineValue, hfields] at hfound
    obtain rfl := Option.some.inj hfound
    have hparse : (oneLine line value).parse (line ++ "\n") = value := if_pos rfl
    rw [← hvalue]
    exact hparse

/-- The end of a session. -/
def closing : Handed := ⟨.sessionEnd .completed, "2026-01-01T00:00:00.000Z", none, ""⟩

def closingRecord : TraceRecord := .new closing.event (some 0) closing.ts

def closingFields : Kyora.Fields :=
  [("v", some (.natural 1)), ("seq", some (.natural 0)), ("ts", some (.string closing.ts)),
    ("type", some (.string "session_end")), ("status", some (.string "completed"))]

def closingLine : String :=
  "\x7b\"seq\":0,\"status\":\"completed\"," ++
    "\"ts\":\"2026-01-01T00:00:00.000Z\",\"type\":\"session_end\",\"v\":1\x7d"

def closingCodec : Codec :=
  oneLine closingLine (some (storedValue (oneLine closingLine none) (.ofFields closingFields)))

theorem closing_shallow (c : Codec) :
    nestsWithin (recursionLimit - 1) (storedValue c (.ofFields closingFields)) = true := by
  rw [recursionLimit, nestsWithin_storedValue]
  rfl

theorem closing_library : Library closingCodec [closingRecord] := by
  have hfields : closingRecord.fields closingCodec = some closingFields := rfl
  refine oneLine_library (by decide +kernel) hfields ?_
  rw [if_pos (closing_shallow _)]
  rfl

/-- The end of the session is written, or stops in the middle of its line. -/
theorem crashConsistent_closing :
    CrashConsistent closingCodec [.emit closing, .finish none] none ∧
      CrashConsistent closingCodec [] (some ⟨closing.event, closing.ts, .text 20⟩) := by
  have hshallow : ∀ record ∈ [closingRecord], Shallow closingCodec record := by
    intro record hrecord value hvalue
    obtain rfl := List.mem_singleton.mp hrecord
    obtain rfl := Option.some.inj hvalue
    exact closing_shallow closingCodec
  have hwritten : (sessionOf closingCodec [.emit closing, .finish none] none).records ++
      (sessionOf closingCodec [.emit closing, .finish none] none).further = [closingRecord] := rfl
  have hstopped : (sessionOf closingCodec []
        (some ⟨closing.event, closing.ts, .text 20⟩)).records ++
      (sessionOf closingCodec []
        (some ⟨closing.event, closing.ts, .text 20⟩)).further = [closingRecord] := rfl
  constructor
  · refine (crashConsistent_iff (hwritten ▸ closing_library)).mpr ?_
    intro record hrecord
    exact hshallow record (hwritten ▸ Writer.complete_subset _ record hrecord)
  · refine (crashConsistent_iff (hstopped ▸ closing_library)).mpr ?_
    intro record hrecord
    exact hshallow record (hstopped ▸ Writer.complete_subset _ record hrecord)

/-! ### A line that nests too deep -/

/-- A value of nested arrays. -/
def nested : Nat → Json
  | 0 => .array []
  | levels + 1 => .array [nested levels]

/-- `nested levels` has one level more. -/
theorem nested_deep (levels : Nat) : nestsWithin levels (nested levels) = false := by
  induction levels with
  | zero => rfl
  | succ levels ih => simp [nested, nestsWithin, ih]

/-- The JSON library reads the arguments of this tool call. -/
example : nestsWithin (recursionLimit - 1) (nested 126) = true := by decide +kernel

def deep : Handed :=
  ⟨.toolCall 0 "toolu_1" "search" (nested 126), "2026-01-01T00:00:00.000Z", none, ""⟩

def deepRecord : TraceRecord := .new deep.event (some 0) deep.ts

def deepFields : Kyora.Fields :=
  [("v", some (.natural 1)), ("seq", some (.natural 0)), ("ts", some (.string deep.ts)),
    ("type", some (.string "tool_call")), ("node", some (.natural 0)),
    ("call", some (.string "toolu_1")), ("name", some (.string "search")),
    ("input", some (nested 126))]

/-- The text of `nested`, and of the record. -/
def brackets (levels : Nat) : String :=
  .ofList (List.replicate (levels + 1) '[' ++ List.replicate (levels + 1) ']')

def deepLine : String :=
  String.join ["\x7b\"call\":\"toolu_1\",\"input\":", brackets 126,
    ",\"name\":\"search\",\"node\":0,\"seq\":0,",
    "\"ts\":\"2026-01-01T00:00:00.000Z\",\"type\":\"tool_call\",\"v\":1\x7d"]

theorem brackets_compact (levels : Nat) : '\n' ∉ (brackets levels).toList := by
  rw [brackets, String.toList_ofList, List.mem_append, List.mem_replicate, List.mem_replicate]
  simp

theorem deepLine_compact : '\n' ∉ deepLine.toList := by
  have hbrackets := brackets_compact 126
  generalize hpiece : brackets 126 = piece at hbrackets
  rw [deepLine, hpiece, String.toList_join]
  simp only [List.flatMap_cons, List.flatMap_nil, List.mem_append, not_or]
  exact ⟨by decide +kernel, hbrackets, by decide +kernel, by decide +kernel, List.not_mem_nil⟩

theorem deep_refused (c : Codec) :
    nestsWithin (recursionLimit - 1) (storedValue c (.ofFields deepFields)) = false := by
  have hinput : ("input", nested 126) ∈ deepFields.filterMap Objects.Fields.member? := by
    simp [deepFields, Objects.Fields.member?]
  rw [recursionLimit, nestsWithin_storedValue, List.all_eq_false]
  refine ⟨_, hinput, ?_⟩
  have hkept : storedMember c "input" (nested 126) = nested 126 := if_neg (by decide)
  rw [hkept, nested_deep]
  exact Bool.false_ne_true

/-- The record of the tool call is written and acknowledged, and the listing fails
    with its file. -/
theorem crashConsistent_deep :
    ∃ c, Library c [deepRecord] ∧ (sessionOf c [.emit deep] none).complete = [deepRecord] ∧
      acknowledged [.emit deep] (Writer.new.run c [.emit deep]).2 = [deep.event] ∧
      listWithPreview c 120 [("session", (sessionOf c [.emit deep] none).file)] = none ∧
      ¬CrashConsistent c [.emit deep] none := by
  have hfields : deepRecord.fields (oneLine deepLine none) = some deepFields := rfl
  have hlibrary : Library (oneLine deepLine none) [deepRecord] := by
    refine oneLine_library deepLine_compact hfields ?_
    rw [if_neg (by simp [deep_refused])]
  have hcomplete : (sessionOf (oneLine deepLine none) [.emit deep] none).complete =
      [deepRecord] := rfl
  have hread : readSession (oneLine deepLine none) 120 "session"
      (sessionOf (oneLine deepLine none) [.emit deep] none).file = none := by
    have hlines : [deepRecord].map (writeRecord (oneLine deepLine none)) =
        [deepLine].map some := rfl
    have hfile := (sessionOf_stopped (oneLine deepLine none) [.emit deep] none).file
    have hrecords : (sessionOf (oneLine deepLine none) [.emit deep] none).records =
        [deepRecord] := rfl
    have hrest : (sessionOf (oneLine deepLine none) [.emit deep] none).rest = [] := rfl
    have hline : [deepRecord].filterMap (writeRecord (oneLine deepLine none)) = [deepLine] := rfl
    rw [hrecords, hrest, hline] at hfile
    rw [hfile]
    rcases readSession_cases hlibrary hlines List.not_mem_nil 120 "session" with
      ⟨-, hshallow⟩ | ⟨hnone, -⟩
    · have hvalue : lineValue (oneLine deepLine none) deepRecord =
          some (storedValue (oneLine deepLine none) (.ofFields deepFields)) := rfl
      have hnests := hshallow deepRecord List.mem_cons_self _ hvalue
      rw [deep_refused] at hnests
      cases hnests
    · exact hnone
  have hlist : listWithPreview (oneLine deepLine none) 120
      [("session", (sessionOf (oneLine deepLine none) [.emit deep] none).file)] = none := by
    simp [listWithPreview, List.mapM_cons, hread]
  refine ⟨_, hlibrary, hcomplete, rfl, hlist, ?_⟩
  intro hconsistent
  obtain ⟨summaries, hsome, -⟩ := hconsistent.listed 120 "session"
    [("session", (sessionOf (oneLine deepLine none) [.emit deep] none).file)]
    List.mem_cons_self (by simp)
  rw [hlist] at hsome
  cases hsome

end Kyora.Session
