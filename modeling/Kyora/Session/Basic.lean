import Kyora.Framework.Utf8
import Kyora.Trace.Codec

/-! # Session files

  `SessionStore::create` runs one writer for `events.jsonl`. A record goes to the
  file in pieces, its text, a newline and a flush, and each piece may fail or be
  the last thing the process does. `session::list` reads the files back, byte by
  byte up to the newline that ends each line.
-/

namespace Kyora.Session

open Trace

/-! ### Writing one record -/

/-- Where the file operations of a record end early. -/
inductive Fault where
  /-- The blob of a large prompt is not stored. -/
  | blob
  /-- Some bytes of the text reach the file. -/
  | text (count : Nat)
  | newline
  | flush
  deriving DecidableEq, Repr

/-- What a record with this text leaves in the file. -/
def Fault.left (text : List UInt8) : Fault → List UInt8
  | .blob => []
  | .text count => text.take count
  | .newline => text
  | .flush => text ++ [10]

/-- The text of a line. -/
def textOf (line : String) : List UInt8 := Utf8.encode line.toList

/-- `write_record`: what is appended to the file, and the result. A record that
    cannot be encoded fails before the first operation. -/
def appendRecord (c : Codec) (record : TraceRecord) (fault : Option Fault) (error : String) :
    List UInt8 × Except String Unit :=
  match writeRecord c record with
  | none => ([], .error error)
  | some line =>
    match fault with
    | none => (textOf line ++ [10], .ok ())
    | some fault => (fault.left (textOf line), .error error)

/-! ### The writer -/

/-- The writer task and its file. -/
structure Writer where
  file : List UInt8
  seq : Nat
  /-- The first error; no record is written after it. -/
  failed : Option String
  /-- No finish was handled yet. -/
  running : Bool
  /-- The records that were written, in order. -/
  records : List TraceRecord
  /-- The record whose operations ended early, with what it left. -/
  torn : Option (TraceRecord × List UInt8)

/-- A new file. -/
def Writer.new : Writer := ⟨[], 0, none, true, [], none⟩

/-- An event, and what happens to it on the way to the file. -/
structure Handed where
  event : TraceEvent
  /-- The clock when the writer takes the event. -/
  ts : String
  fault : Option Fault
  /-- The text of the error, if there is one. -/
  error : String

/-- A call of the sink. -/
inductive Call where
  | emit (e : Handed)
  /-- The flush of the file may fail. -/
  | finish (error : Option String)

namespace Writer

/-- `WriteCommand::Event`. -/
def handle (c : Codec) (w : Writer) (e : Handed) : Writer × Except String Unit :=
  let record := TraceRecord.new e.event (some w.seq) e.ts
  match w.failed with
  | some error => (w, .error error)
  | none =>
    match appendRecord c record e.fault e.error with
    | (bytes, .ok ()) =>
      ({ w with
          file := w.file ++ bytes
          seq := w.seq + 1
          records := w.records ++ [record] }, .ok ())
    | (bytes, .error error) =>
      ({ w with
          file := w.file ++ bytes
          failed := some error
          torn := some (record, bytes) }, .error error)

/-- `WriteCommand::Finish`: a record that failed earlier fails the finish as well. -/
def flushed (w : Writer) (error : Option String) : Except String Unit :=
  match w.failed with
  | some error => .error error
  | none =>
    match error with
    | some error => .error error
    | none => .ok ()

/-- `emit` and `finish`. An ephemeral event is only broadcast; a second finish
    finds no writer to join. -/
def call (c : Codec) (w : Writer) : Call → Writer × Except String Unit
  | .emit e =>
    if e.event.ephemeral then (w, .ok ())
    else if !w.running then (w, .error "channel closed")
    else w.handle c e
  | .finish error =>
    if !w.running then (w, .ok ())
    else ({ w with running := false }, w.flushed error)

/-- Calls one after the other, with what each returned. -/
def run (c : Codec) : Writer → List Call → Writer × List (Except String Unit)
  | w, [] => (w, [])
  | w, first :: calls =>
    let next := w.call c first
    let rest := run c next.1 calls
    (rest.1, next.2 :: rest.2)

end Writer

/-- The process stops while it writes the record of an event. -/
structure Stop where
  event : TraceEvent
  ts : String
  point : Fault

/-- What the stopped process leaves. -/
def Writer.stopped (c : Codec) (w : Writer) : Option Stop → Writer
  | none => w
  | some stop =>
    if stop.event.ephemeral || !w.running || w.failed.isSome then w
    else
      let record := TraceRecord.new stop.event (some w.seq) stop.ts
      let bytes := (appendRecord c record (some stop.point) "").1
      { w with file := w.file ++ bytes, torn := some (record, bytes) }

/-- The calls of a session until it ends or its process stops. -/
def sessionOf (c : Codec) (calls : List Call) (stop : Option Stop) : Writer :=
  ((Writer.new.run c calls).1).stopped c stop

/-! ### Listing sessions -/

/-- `serde_json` refuses a text that nests arrays and objects this deep. -/
def recursionLimit : Nat := 128

/-- Arrays and objects are nested in at most this many levels. -/
def nestsWithin : Nat → Json → Bool
  | 0, .array _ | 0, .object _ => false
  | levels + 1, .array items => items.all (nestsWithin levels)
  | levels + 1, .object members => members.all fun member => nestsWithin levels member.2
  | _, _ => true

/-- A session summary for list views. -/
structure SessionSummary where
  /-- Session directory name. -/
  id : String
  /-- Start timestamp. -/
  startTime : String
  /-- Final status, or interrupted if no session_end was flushed. -/
  status : String
  /-- First user task, bounded to the configured preview length. -/
  taskPreview : String
  deriving DecidableEq, Repr

/-- `record[key]`: what is not there is `null`. -/
def index (record : Json) (key : String) : Json :=
  match record with
  | .object members => (members.lookup key).getD .null
  | _ => .null

/-- `serde_json::from_slice`. -/
def fromSlice (c : Codec) (line : List UInt8) : Option Json :=
  (Utf8.decode line).bind fun text => c.parse (String.ofList text)

/-- `record["node"] == 0`. -/
def isZero : Json → Bool
  | .integer n => n == 0
  | _ => false

/-- What one record adds to the summary. -/
def noteRecord (previewChars : Nat) (summary : SessionSummary) (record : Json) :
    Option SessionSummary :=
  let tag := (index record "type").text?
  if tag = some "session_start" then
    some { summary with startTime := ((index record "ts").text?).getD "" }
  else if tag = some "session_end" then
    some { summary with status := ((index record "status").text?).getD "failed" }
  else if tag = some "message" ∧ isZero (index record "node") ∧ summary.taskPreview = "" then
    (Message.json? (index record "message")).map fun message =>
      if message.role = .user then
        { summary with taskPreview := String.ofList (message.text.toList.take previewChars) }
      else summary
  else some summary

/-- The loop over the lines of a file. `line` is what was read of the current
    one; at the end of the file it is dropped. -/
def readLines (c : Codec) (previewChars : Nat) :
    SessionSummary → List UInt8 → List UInt8 → Option SessionSummary
  | summary, _, [] => some summary
  | summary, line, byte :: rest =>
    if byte = 10 then
      ((fromSlice c (line ++ [byte])).bind (noteRecord previewChars summary)).bind fun summary =>
        readLines c previewChars summary [] rest
    else readLines c previewChars summary (line ++ [byte]) rest

/-- One session of the listing. -/
def readSession (c : Codec) (previewChars : Nat) (id : String) (file : List UInt8) :
    Option SessionSummary :=
  readLines c previewChars ⟨id, "", "interrupted", ""⟩ [] file

/-- `list_with_preview`, over the sessions in the order of the directory. -/
def listWithPreview (c : Codec) (previewChars : Nat) (home : List (String × List UInt8)) :
    Option (List SessionSummary) :=
  (home.mapM fun session => readSession c previewChars session.1 session.2).map fun summaries =>
    summaries.mergeSort fun a b => decide (b.id ≤ a.id)

end Kyora.Session
