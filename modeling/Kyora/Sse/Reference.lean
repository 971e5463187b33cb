import Kyora.Sse.Basic
import Mathlib.Data.List.Flatten

/-! # A reference decoder of event streams

  What a whole stream says, by the rules of the format and without a parser's
  state: the stream is cut into lines, the lines into blocks at the blank ones,
  and each block is read as an event on its own.
-/

namespace Kyora.Sse

/-! ### Lines -/

/-- The lines that are terminated, by CR, LF or CRLF, after the bytes `part` of
    the first one. -/
def terminated : List UInt8 → List UInt8 → List (List UInt8)
  | _, [] => []
  | part, 10 :: stream => part :: terminated [] stream
  | part, 13 :: 10 :: stream => part :: terminated [] stream
  | part, 13 :: stream => part :: terminated [] stream
  | part, byte :: stream => terminated (part ++ [byte]) stream

/-- A byte inside a line. -/
theorem terminated_byte (part : List UInt8) {byte : UInt8} (h13 : byte ≠ 13) (h10 : byte ≠ 10)
    (stream : List UInt8) :
    terminated part (byte :: stream) = terminated (part ++ [byte]) stream := by
  rw [terminated]
  all_goals first | exact h10 | exact h13 | exact fun _ h _ => h13 h

/-- A CR that no LF follows. -/
theorem terminated_cr (part : List UInt8) {stream : List UInt8}
    (hlf : ∀ rest, stream ≠ 10 :: rest) :
    terminated part (13 :: stream) = part :: terminated [] stream := by
  rw [terminated]
  all_goals exact hlf

/-- Whether every terminated line of a stream is valid UTF-8. -/
def ValidLines (stream : List UInt8) : Prop :=
  ∀ line ∈ terminated [] stream, (Utf8.decode line).isSome

instance (stream : List UInt8) : Decidable (ValidLines stream) :=
  inferInstanceAs (Decidable (∀ line ∈ terminated [] stream, (Utf8.decode line).isSome = true))

/-- The texts of the lines before the first one that is not valid. -/
def decoded (lines : List (List UInt8)) : List (List Char) :=
  (lines.map Utf8.decode).takeWhile Option.isSome |>.reduceOption

/-- Without the mark at the start of the first line. -/
def stripMark : List (List Char) → List (List Char)
  | [] => []
  | text :: texts => stripChar '\uFEFF' text :: texts

/-! ### Blocks -/

/-- The blocks that a blank line ends, after the lines `block` of the first one. -/
def blocks : List (List Char) → List (List Char) → List (List (List Char))
  | _, [] => []
  | block, [] :: texts => block :: blocks [] texts
  | block, text :: texts => blocks (block ++ [text]) texts

/-- The fields of a block, in order. A line that starts with a colon is a comment. -/
def fields (block : List (List Char)) : List (List Char × List Char) :=
  (block.filter fun text => text.head? != some ':').map fieldOf

/-- The values that some fields give to a name. -/
def valuesOf (name : String) (fs : List (List Char × List Char)) : List (List Char) :=
  (fs.filter fun f => f.1 == name.toList).map Prod.snd

/-! ### Events -/

/-- The last id among some fields. A value with a NUL is no id. -/
def idOf (fs : List (List Char × List Char)) : List Char :=
  (((valuesOf "id" fs).filter fun value => !value.contains '\x00').getLast?).getD []

/-- The last valid retry among some fields. -/
def retryOf (fs : List (List Char × List Char)) : Option Nat :=
  ((valuesOf "retry" fs).filterMap parseRetry).getLast?

/-- The name of an event, `message` where no field names it. -/
def nameOf (fs : List (List Char × List Char)) : List Char :=
  let name := ((valuesOf "event" fs).getLast?).getD []
  if name = [] then "message".toList else name

/-- The event of a block, if the block has data. The id and the retry time are
    those of the stream so far. -/
def eventOf (before block : List (List Char × List Char)) : Option Event :=
  if valuesOf "data" block = [] then none
  else some
    { event := nameOf block
      data := ['\n'].intercalate (valuesOf "data" block)
      id := idOf (before ++ block)
      retry := retryOf (before ++ block) }

/-- The events of some blocks. -/
def eventsOf (before : List (List Char × List Char)) : List (List (List Char)) → List Event
  | [] => []
  | block :: rest =>
    (eventOf before (fields block)).toList ++ eventsOf (before ++ fields block) rest

/-- The events that a stream completes before its first line that is not valid. -/
def reference (stream : List UInt8) : List Event :=
  eventsOf [] (blocks [] (stripMark (decoded (terminated [] stream))))

example : reference (Utf8.encode "\uFEFFdata\r\ndata: 2\rid:x\n\nid:\r\ndata: é\n\nevent: e".toList) =
    [⟨"message".toList, "\n2".toList, "x".toList, none⟩,
      ⟨"message".toList, "é".toList, [], none⟩] := by decide +kernel

end Kyora.Sse
