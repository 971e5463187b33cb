import Mathlib.Data.List.DropRight
import Kyora.Sse.Reference

/-! # The size of server events

  The events of an MCP server are bounded: the adapter counts the bytes of the
  event being received, over chunks cut anywhere, and fails once they exceed the
  limit. What it counts are the bytes of the lines since the last blank one.
-/

namespace Kyora.Mcp

/-! ### The counter -/

/-- The size of the SSE event being received. As in the SSE parser, a line ends
    at CR, LF or CRLF, and a blank line ends the event. -/
structure EventSize where
  limit : Nat
  size : Nat
  line : Nat
  afterCr : Bool
  deriving DecidableEq, Repr

namespace EventSize

def new (limit : Nat) : EventSize := ⟨limit, 0, 0, false⟩

/-- False once the current event exceeds the limit. -/
def feed (s : EventSize) : List UInt8 → EventSize × Bool
  | [] => (s, true)
  | byte :: bytes =>
    -- The LF of a CRLF, possibly split across chunks.
    if byte = 10 ∧ s.afterCr = true then { s with afterCr := false }.feed bytes
    else if byte = 13 ∨ byte = 10 then
      { s with
        afterCr := byte == 13
        size := if s.line = 0 then 0 else s.size
        line := 0 }.feed bytes
    else
      let s := { s with afterCr := false, line := s.line + 1, size := s.size + 1 }
      if s.size > s.limit then (s, false) else s.feed bytes

/-- What one call for each chunk returns. -/
def feeds (s : EventSize) : List (List UInt8) → List Bool
  | [] => []
  | chunk :: chunks => (s.feed chunk).2 :: (s.feed chunk).1.feeds chunks

end EventSize

/-- The first call that returns false. -/
def firstRefused (limit : Nat) (chunks : List (List UInt8)) : Option Nat :=
  ((EventSize.new limit).feeds chunks).findIdx? (!·)

/-- `HttpClient::events`: the body chunk by chunk, with an error in the place of
    a chunk whose event is too large. Errors of the transport pass through. -/
def events (s : EventSize) : List (Except String (List UInt8)) →
    List (Except String (List UInt8))
  | [] => []
  | .error e :: chunks => .error e :: events s chunks
  | .ok chunk :: chunks =>
    (if (s.feed chunk).2 then .ok chunk else .error "SSE event exceeds the size limit") ::
      events (s.feed chunk).1 chunks

/-! ### The size of an event -/

/-- The bytes after the last line end, after the bytes `part` of the first
    line. -/
def unfinished : List UInt8 → List UInt8 → List UInt8
  | part, [] => part
  | _, 10 :: stream => unfinished [] stream
  | _, 13 :: 10 :: stream => unfinished [] stream
  | _, 13 :: stream => unfinished [] stream
  | part, byte :: stream => unfinished (part ++ [byte]) stream

/-- The bytes since the last blank line, without line ends. -/
def eventBytes (stream : List UInt8) : List UInt8 :=
  ((Sse.terminated [] stream).rtakeWhile (· ≠ [])).flatten ++ unfinished [] stream

/-- The first byte at which an event exceeds the limit. -/
def firstOver (limit : Nat) (stream : List UInt8) : Option Nat :=
  (List.range stream.length).find? fun n => limit < (eventBytes (stream.take (n + 1))).length

/-- A byte that ends no line. -/
def inLine (byte : UInt8) : Bool := byte ≠ 13 ∧ byte ≠ 10

end Kyora.Mcp
