import Kyora.Framework.Ranges
import Kyora.Framework.Utf8
import Mathlib.Algebra.BigOperators.Group.List.Basic
import Mathlib.Algebra.Order.Ring.Nat

/-! # Credential values and their redaction

  `Secrets` replaces the credential values of one server in a text. The text is
  searched as it is and with its JSON escapes decoded; the matches arrive in the
  order of their ends and are merged on the fly. Texts are their UTF-8 bytes and
  positions are byte offsets, as in the source; a slice that is not on character
  boundaries, or an index out of range, is a panic, here `none`.

  The Aho-Corasick automaton is a parameter: `search values text` are the matches
  that `find_overlapping_iter` reports.
-/

namespace Kyora

/-! ### Values -/

/-- `defaults::MIN_SECRET_CHARS`. -/
def minSecretChars : Nat := 6

/-- `defaults::MAX_SECRET_BYTES`. -/
def maxSecretBytes : Nat := 4096

/-- A value that is redacted: neither too short nor too long. -/
structure SecretValue where
  text : List Char
  long : minSecretChars ≤ text.length
  bounded : (Utf8.encode text).length ≤ maxSecretBytes

/-- The bytes of a value. -/
def SecretValue.bytes (v : SecretValue) : List UInt8 := Utf8.encode v.text

/-- Credential values of one server. -/
structure Secrets where
  values : List SecretValue
  /-- Variables whose values are too short to redact. -/
  short : List String

/-- The matches in a text, as `(start, end)`. -/
abbrev Search : Type := List (List UInt8) → List UInt8 → List Range

namespace Secrets

/-- One variable of the configuration. -/
def resolveVariable (env : List (String × List Char)) (s : Secrets) (name : String) :
    Except String Secrets :=
  match env.lookup name with
  | none => .ok s
  | some value =>
    if hbounded : (Utf8.encode value).length ≤ maxSecretBytes then
      if hlong : minSecretChars ≤ value.length then
        .ok { s with values := s.values ++ [⟨value, hlong, hbounded⟩] }
      else if value ≠ [] ∧ name ∉ s.short then
        .ok { s with short := s.short ++ [name] }
      else .ok s
    else
      .error ("the value of " ++ name ++ " is longer than " ++ toString maxSecretBytes ++
        " bytes, too long to redact reliably")

/-- `Secrets::resolve`: the values of some variables, sorted and each once. -/
def resolve (names : List String) (env : List (String × List Char)) :
    Except String Secrets :=
  (names.foldlM (resolveVariable env) ⟨[], []⟩).map fun s =>
    { s with
      values := (s.values.mergeSort fun a b =>
        decide (String.ofList a.text ≤ String.ofList b.text)).pwFilter
          fun a b => a.text ≠ b.text }

/-- Length in bytes of the longest value. -/
def longest (s : Secrets) : Nat := (s.values.map fun v => v.bytes.length).foldl max 0

/-- Most text bytes per decoded byte: an ASCII character written as `\uXXXX`. -/
def escapeGrowth : Nat := 6

/-- Bytes of text a single match can span. -/
def reach (s : Secrets) : Nat := s.longest * escapeGrowth

end Secrets

/-! ### JSON escapes -/

/-- `char::from_u32`. -/
def charFromU32 (n : Nat) : Option Char := if n.isValidChar then some (Char.ofNat n) else none

/-- The value of a hexadecimal digit, in either case. -/
def hexDigit? (b : UInt8) : Option Nat :=
  if 0x30 ≤ b.toNat ∧ b.toNat ≤ 0x39 then some (b.toNat - 0x30)
  else if 0x41 ≤ b.toNat ∧ b.toNat ≤ 0x46 then some (b.toNat - 0x41 + 10)
  else if 0x61 ≤ b.toNat ∧ b.toNat ≤ 0x66 then some (b.toNat - 0x61 + 10)
  else none

/-- `hex4`: all digits are hexadecimal ones. -/
def hex4 (digits : List UInt8) : Option Nat :=
  (digits.mapM hexDigit?).map fun values => values.foldl (fun n d => 16 * n + d) 0

/-- `bytes.get(a..b)`. -/
def getSlice (bytes : List UInt8) (a b : Nat) : Option (List UInt8) :=
  if a ≤ b ∧ b ≤ bytes.length then some ((bytes.take b).drop a) else none

/-- A `\uXXXX` escape, or a surrogate pair of two. -/
def unicode (bytes : List UInt8) : Option (Char × Nat) := do
  let unit ← hex4 (← getSlice bytes 2 6)
  if 0xD800 ≤ unit ∧ unit ≤ 0xDBFF then
    if (← getSlice bytes 6 8) ≠ [0x5C, 0x75] then none
    else
      let low ← hex4 (← getSlice bytes 8 12)
      if 0xDC00 ≤ low ∧ low ≤ 0xDFFF then
        let c ← charFromU32 (0x10000 + (unit - 0xD800) * 2 ^ 10 + (low - 0xDC00))
        some (c, 12)
      else none
  else if 0xDC00 ≤ unit ∧ unit ≤ 0xDFFF then none
  else do
    let c ← charFromU32 unit
    some (c, 6)

/-- The character of a two-character escape. -/
def simpleEscape (b : UInt8) : Option Char :=
  if b = 0x22 then some '"'
  else if b = 0x5C then some '\\'
  else if b = 0x2F then some '/'
  else if b = 0x62 then some '\x08'
  else if b = 0x66 then some '\x0c'
  else if b = 0x6E then some '\n'
  else if b = 0x72 then some '\r'
  else if b = 0x74 then some '\t'
  else none

/-- The character an escape at the start of `bytes` stands for, and its length. -/
def unescape (bytes : List UInt8) : Option (Char × Nat) :=
  match bytes with
  | 0x5C :: b :: _ =>
    if b = 0x75 then unicode bytes else (simpleEscape b).map fun c => (c, 2)
  | _ => none

/-! ### Decoded text -/

/-- One character of a decoded text: an escape or a copied character. -/
structure Token where
  char : Char
  /-- The bytes it was read from. -/
  used : Nat
  escape : Bool

/-- The next character; not a valid escape, a stray backslash included, is copied
    as it is. -/
def nextToken (bytes : List UInt8) : Option Token :=
  match unescape bytes with
  | some (c, used) => some ⟨c, used, true⟩
  | none => (Utf8.decodeChar bytes).map fun x => ⟨x.1, x.1.utf8Size, false⟩

/-- A text with its JSON string escapes decoded. -/
structure Decoded where
  text : List UInt8
  /-- For every decoded byte, and one past the end, the text offset of the
      character or escape it came from. -/
  origin : List Nat

namespace Decoded

/-- Where the bytes of a character came from: an escape's from its start. -/
def origins (at_ : Nat) (t : Token) : List Nat :=
  (List.range t.char.utf8Size).map fun offset => if t.escape then at_ else at_ + offset

/-- The loop, with what is left of the text from `at_` on. Each round takes one
    byte at least. -/
def decodeLoop : Nat → Nat → List UInt8 → Decoded → Option Decoded
  | _, at_, [], view => some { view with origin := view.origin ++ [at_] }
  | 0, _, _ :: _, _ => none
  | fuel + 1, at_, bytes, view =>
    (nextToken bytes).bind fun t =>
      decodeLoop fuel (at_ + t.used) (bytes.drop t.used)
        ⟨view.text ++ String.utf8EncodeChar t.char, view.origin ++ origins at_ t⟩

/-- `Decoded::new(text, false)`: nothing when there is nothing to decode, or the
    text is too large to map. -/
def plain (text : List UInt8) : Option (Option Decoded) :=
  if 2 ^ 32 ≤ text.length + 1 then some none
  else if 0x5C ∉ text then some none
  else (decodeLoop text.length 0 text ⟨[], []⟩).map some

/-- `Decoded::new`. With `leadingBackslash`, decodes as if one backslash came before
    the text; that backslash maps to the start of the text. -/
def new (text : List UInt8) (leadingBackslash : Bool) : Option (Option Decoded) :=
  if 2 ^ 32 ≤ text.length + 1 then some none
  else if leadingBackslash then
    (plain (0x5C :: text)).map fun view => view.map fun view =>
      { view with origin := view.origin.map fun origin => origin - 1 }
  else plain text

/-- The text range a decoded match came from. -/
def original (view : Decoded) (found : Range) : Option Range := do
  let start ← view.origin[found.1]?
  let stop ← view.origin[found.2]?
  return (start, stop)

end Decoded

/-! ### Spans -/

/-- What replaces a value, as bytes. -/
def redacted : List UInt8 := Utf8.encode "[redacted]".toList

/-- `&text[a..b]`. -/
def slice (text : List UInt8) (a b : Nat) : Option (List UInt8) :=
  if a ≤ b ∧ Utf8.isBoundary text a ∧ Utf8.isBoundary text b then
    some ((text.take b).drop a)
  else none

/-- The redacted text so far. -/
structure Spans where
  out : List UInt8
  copied : Nat
  /-- The stack of spans that may still grow, the last one first. -/
  pending : List Range

namespace Spans

/-- `Spans::new`. -/
def new (start : Nat) : Spans := ⟨[], start, []⟩

/-- Takes the spans that overlap or touch a later one from the stack. -/
def absorb (start : Nat) : List Range → Nat × List Range
  | [] => (start, [])
  | (earlier, last) :: pending =>
    if start ≤ last then absorb (min start earlier) pending
    else (start, (earlier, last) :: pending)

def emit (text : List UInt8) (s : Spans) (span : Range) : Option Spans :=
  if s.copied < span.2 then
    (slice text s.copied (max span.1 s.copied)).map fun copy =>
      { s with out := s.out ++ copy ++ redacted, copied := span.2 }
  else some s

/-- A later match ends at or after this one, so it starts at or after `end - reach`;
    spans ending before that are final. -/
def push (text : List UInt8) (reach : Nat) (s : Spans) (span : Range) : Option Spans :=
  let absorbed := absorb span.1 s.pending
  let pending := (absorbed.1, span.2) :: absorbed.2
  let final := fun r : Range => decide (r.2 < span.2 - reach)
  let settled := pending.reverse.takeWhile final
  settled.foldlM (emit text) { s with pending := (pending.reverse.dropWhile final).reverse }

def finish (text : List UInt8) (s : Spans) : Option (List UInt8) :=
  (s.pending.reverse.foldlM (emit text) { s with pending := [] }).bind fun s =>
    (slice text s.copied text.length).map fun rest => s.out ++ rest

end Spans

/-! ### Redaction -/

/-- The stream whose next match ends first, the first of these, and what is left. -/
def nextMatch : List (List Range) → Option (Range × List (List Range))
  | [] => none
  | [] :: streams => (nextMatch streams).map fun x => (x.1, [] :: x.2)
  | (first :: rest) :: streams =>
    match nextMatch streams with
    | none => some (first, rest :: streams)
    | some (other, streams') =>
      if other.2 < first.2 then some (other, (first :: rest) :: streams')
      else some (first, rest :: streams)

/-- The matches of all streams in the order they are taken, one each round. -/
def mergeMatches : Nat → List (List Range) → List Range
  | 0, _ => []
  | fuel + 1, streams =>
    match nextMatch streams with
    | none => []
    | some (found, streams) => found :: mergeMatches fuel streams

namespace Secrets

/-- `from`, moved up to a character boundary. -/
def alignUp (text : List UInt8) : Nat → Nat → Nat
  | 0, start => start
  | fuel + 1, start => if Utf8.isBoundary text start then start else alignUp text fuel (start + 1)

/-- The matches in a text and in its decoded views, in the order they are pushed.
    A cut text is also decoded as if one backslash came before it. -/
def findMatches (search : Search) (s : Secrets) (text : List UInt8) (cut : Bool) :
    Option (List Range) := do
  let patterns := s.values.map SecretValue.bytes
  let raw := search patterns text
  let first ← Decoded.new text false
  let second ← if cut then Decoded.new text true else some none
  let views := [first, second].filterMap id
  let decoded ← views.mapM fun view => (search patterns view.text).mapM view.original
  let streams := raw :: decoded
  -- nothing to decode: one stream, no merging
  return if views.isEmpty then raw else mergeMatches (streams.map List.length).sum streams

/-- `redact_spans`. -/
def redactSpans (search : Search) (s : Secrets) (text : List UInt8) (start : Nat) (cut : Bool) :
    Option (List UInt8) := do
  let start := alignUp text text.length (min start text.length)
  if s.values.isEmpty then slice text start text.length
  else
    let found ← s.findMatches search text cut
    let spans ← found.foldlM (Spans.push text s.reach) (Spans.new start)
    spans.finish text

/-- `redact_from`. -/
def redactFrom (search : Search) (s : Secrets) (text : List UInt8) (start : Nat) :
    Option (List UInt8) := s.redactSpans search text start false

/-- `redact`. -/
def redact (search : Search) (s : Secrets) (text : List UInt8) : Option (List UInt8) :=
  s.redactFrom search text 0

/-- `redact_cut`. -/
def redactCut (search : Search) (s : Secrets) (text : List UInt8) (start : Nat) :
    Option (List UInt8) := s.redactSpans search text start true

end Secrets

end Kyora
