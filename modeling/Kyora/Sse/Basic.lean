import Kyora.Attempts.Retry
import Kyora.Framework.Utf8

/-! # The framing of server-sent events

  `Parser` holds bytes until a line is complete, and fields until a blank line
  ends their event. Chunks arrive at any boundary, inside a line, inside a
  character or between the two bytes of a CRLF.
-/

namespace Kyora.Sse

/-- `Event`. Texts are their characters, `retry` fits 64 bits. -/
structure Event where
  event : List Char
  data : List Char
  id : List Char
  retry : Option Nat
  deriving DecidableEq, Repr

/-- `Event::default`. -/
def Event.empty : Event := ⟨[], [], [], none⟩

/-- `Parser`. -/
structure Parser where
  line : List UInt8
  skipLf : Bool
  firstLine : Bool
  current : Event
  hasData : Bool
  lastId : List Char
  retry : Option Nat
  deriving DecidableEq, Repr

/-- `Parser::new`. -/
def Parser.new : Parser := ⟨[], false, true, .empty, false, [], none⟩

/-! ### One line -/

/-- `str::strip_prefix` of a character, and the text itself where it has none. -/
def stripChar (c : Char) : List Char → List Char
  | [] => []
  | d :: text => if d = c then text else d :: text

/-- `str::split_once`. -/
def splitOnce (c : Char) : List Char → Option (List Char × List Char)
  | [] => none
  | d :: text =>
    if d = c then some ([], text) else (splitOnce c text).map fun (s, t) => (d :: s, t)

/-- The field and the value of a line that is no comment. -/
def fieldOf (line : List Char) : List Char × List Char :=
  let (field, value) := (splitOnce ':' line).getD (line, [])
  (field, stripChar ' ' value)

/-- The number that decimal digits spell. -/
def digitsValue (digits : List Char) : Nat :=
  digits.foldl (fun n c => 10 * n + (c.toNat - '0'.toNat)) 0

/-- The guard of a `retry` field and `str::parse::<u64>`. -/
def parseRetry (value : List Char) : Option Nat :=
  if value ≠ [] ∧ value.all Char.isDigit then
    let retry := digitsValue value
    if retry < 2 ^ 64 then some retry else none
  else none

/-- The match of a line on its field. -/
def Parser.onField (p : Parser) (field value : List Char) : Parser :=
  if field = "event".toList then { p with current := { p.current with event := value } }
  else if field = "data".toList then
    { p with
      current := { p.current with data := p.current.data ++ value ++ ['\n'] }
      hasData := true }
  else if field = "id".toList then
    if value.contains '\x00' then p else { p with lastId := value }
  else if field = "retry".toList then
    match parseRetry value with
    | some retry => { p with retry := some retry }
    | none => p
  else p

/-- What a blank line makes of the current event. -/
def Parser.dispatched (p : Parser) : Event :=
  { event := if p.current.event = [] then "message".toList else p.current.event
    data := p.current.data.dropLast -- the newline of the last data field
    id := p.lastId
    retry := p.retry }

/-- A complete line, decoded and without the mark at the start of the stream. -/
def Parser.onText (p : Parser) (text : List Char) (events : List Event) :
    Parser × List Event :=
  match text with
  | [] =>
    ({ p with current := .empty, hasData := false },
      if p.hasData then events ++ [p.dispatched] else events)
  | ':' :: _ => (p, events)
  | text => let (field, value) := fieldOf text; (p.onField field value, events)

/-- `Parser::line`. -/
def Parser.onLine (p : Parser) (events : List Event) :
    Except ProviderError (Parser × List Event) :=
  match Utf8.decode p.line with
  | none => .error (.protocol "invalid SSE UTF-8")
  | some text =>
    let text := if p.firstLine then stripChar '\uFEFF' text else text
    .ok (({ p with line := [], firstLine := false }).onText text events)

/-! ### One chunk -/

/-- The loop body of `feed`. -/
def Parser.feedByte (acc : Parser × List Event) (byte : UInt8) :
    Except ProviderError (Parser × List Event) :=
  let (p, events) := acc
  if p.skipLf ∧ byte = 10 then .ok ({ p with skipLf := false }, events)
  else
    let p := { p with skipLf := false }
    if byte = 13 ∨ byte = 10 then
      (p.onLine events).map fun (p, events) => ({ p with skipLf := byte == 13 }, events)
    else .ok ({ p with line := p.line ++ [byte] }, events)

/-- `Parser::feed`. -/
def Parser.feed (p : Parser) (bytes : List UInt8) : Except ProviderError (Parser × List Event) :=
  bytes.foldlM Parser.feedByte (p, [])

/-- The chunks of a stream fed one after the other, and the concatenation of
    what `feed` returned for them. -/
def Parser.feedAll (p : Parser) : List (List UInt8) →
    Except ProviderError (Parser × List Event)
  | [] => .ok (p, [])
  | chunk :: chunks =>
    (p.feed chunk).bind fun (q, events) =>
      (q.feedAll chunks).map fun (r, later) => (r, events ++ later)

example : (Parser.new.feed (Utf8.encode "data: é\r\n\r\nretry: 7\r".toList)).map Prod.snd =
    .ok [⟨"message".toList, "é".toList, [], none⟩] := by decide +kernel

end Kyora.Sse
