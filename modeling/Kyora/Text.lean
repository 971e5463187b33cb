import Mathlib.Data.List.Basic

/-! # Cutting text

  `truncate` shortens a text to a number of characters, keeping its head and
  its tail around a marker that states how much was left out. `trim` takes the
  white space around a text away.
-/

namespace Kyora

/-- The marker that stands for `count` characters. -/
def omitted (count : Nat) : List Char :=
  ("[... " ++ toString count ++ " characters omitted ...]").toList

/-- The loop of `truncate`: `kept` is the number of characters that may stay.
    Each round keeps fewer, so `cap + 1` rounds are enough. -/
def truncateLoop (text : List Char) (cap : Nat) : Nat → Nat → List Char
  | 0, _ => text.take cap
  | fuel + 1, kept =>
    let marker := omitted (text.length - kept)
    if marker.length > cap then text.take cap
    else
      let next := cap - marker.length
      if next ≥ kept then
        text.take ((kept + 1) / 2) ++ marker ++ text.drop (text.length - kept / 2)
      else truncateLoop text cap fuel next

/-- A text of at most `cap` characters. -/
def truncate (text : String) (cap : Nat) : String :=
  if text.length ≤ cap then text
  else String.ofList (truncateLoop text.toList cap (cap + 1) cap)

/-! ### Trimming -/

/-- `char::is_whitespace`. -/
def isWhitespace (c : Char) : Bool :=
  let n := c.toNat
  9 ≤ n && n ≤ 13 || n == 0x20 || n == 0x85 || n == 0xA0 || n == 0x1680 ||
    0x2000 ≤ n && n ≤ 0x200A || n == 0x2028 || n == 0x2029 || n == 0x202F || n == 0x205F ||
    n == 0x3000

/-- `str::trim`. -/
def trim (text : List Char) : List Char :=
  ((text.dropWhile isWhitespace).reverse.dropWhile isWhitespace).reverse

end Kyora
