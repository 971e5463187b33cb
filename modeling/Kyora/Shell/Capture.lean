import Kyora.Framework.Lossy
import Mathlib.Algebra.Order.Ring.Nat

/-! # Bounded capture of output

  The shell keeps the first and the last bytes that a command writes, half of its
  bound each, and decodes the two halves one by one. Where nothing was left out
  the halves meet, possibly inside a character.
-/

namespace Kyora.Shell

/-- The output kept of one stream. `total` is a `u64`. -/
structure Capture where
  head : List UInt8
  tail : List UInt8
  cap : Nat
  total : Nat

namespace Capture

/-- `Capture::new`. -/
def new (cap : Nat) : Capture := ⟨[], [], cap, 0⟩

/-- One byte; once the tail is full its first byte goes. -/
def pushByte (c : Capture) (byte : UInt8) : Capture :=
  if c.head.length < (c.cap + 1) / 2 then { c with head := c.head ++ [byte] }
  else if 0 < c.cap / 2 then
    let tail := if c.tail.length = c.cap / 2 then c.tail.drop 1 else c.tail
    { c with tail := tail ++ [byte] }
  else c

/-- `Capture::push`. -/
def push (c : Capture) (bytes : List UInt8) : Capture :=
  bytes.foldl pushByte { c with total := (c.total + bytes.length) % 2 ^ 64 }

/-- The marker between the halves. -/
def marker (omitted : Nat) : List Char :=
  ("[... " ++ toString omitted ++ " bytes omitted ...]").toList

/-- `Capture::text`. -/
def text (c : Capture) : List Char :=
  let omitted := c.total - (c.head.length + c.tail.length)
  Utf8.lossy c.head ++ (if 0 < omitted then marker omitted else []) ++ Utf8.lossy c.tail

/-- A stream that arrives in some pieces. -/
def ofChunks (cap : Nat) (chunks : List (List UInt8)) : Capture := chunks.foldl push (new cap)

end Capture

/-! ### What is kept -/

/-- The last elements of a list. -/
def lastBytes (n : Nat) (bytes : List UInt8) : List UInt8 := bytes.drop (bytes.length - n)

/-- The capture after some bytes: the first ones and the last of the others. -/
structure Holds (cap : Nat) (seen : List UInt8) (c : Capture) : Prop where
  bound : c.cap = cap
  head : c.head = seen.take ((cap + 1) / 2)
  tail : c.tail = lastBytes (cap / 2) (seen.drop ((cap + 1) / 2))
  total : c.total = seen.length % 2 ^ 64

/-- The last bytes of a stream that goes on. -/
theorem lastBytes_append (n : Nat) (bytes more : List UInt8) :
    lastBytes n (lastBytes n bytes ++ more) = lastBytes n (bytes ++ more) := by
  unfold lastBytes
  rw [← List.drop_append_of_le_length (Nat.sub_le bytes.length n), List.drop_drop,
    List.length_drop, List.length_append]
  congr 1
  omega

theorem lastBytes_of_le {n : Nat} {bytes : List UInt8} (h : bytes.length ≤ n) :
    lastBytes n bytes = bytes := by
  rw [lastBytes, Nat.sub_eq_zero_of_le h, List.drop_zero]

section capture

variable {cap : Nat} {seen bytes : List UInt8} {c : Capture}

theorem length_lastBytes (n : Nat) (bytes : List UInt8) :
    (lastBytes n bytes).length = min n bytes.length := by
  rw [lastBytes, List.length_drop]
  omega

/-- One more byte at the end. -/
theorem lastBytes_concat {n : Nat} (hn : 0 < n) (byte : UInt8) :
    (if (lastBytes n bytes).length = n then (lastBytes n bytes).drop 1 else lastBytes n bytes) ++
      [byte] = lastBytes n (bytes ++ [byte]) := by
  have hlength := length_lastBytes n bytes
  rw [lastBytes, lastBytes, List.length_append, List.length_singleton]
  rw [lastBytes] at hlength
  by_cases hfull : n ≤ bytes.length
  · rw [if_pos (by omega), List.drop_drop, List.drop_append_of_le_length (by omega)]
    congr 2
    omega
  · have hshort : bytes.length + 1 - n = 0 := by omega
    rw [if_neg (by omega), hshort, List.drop_zero, show bytes.length - n = 0 by omega,
      List.drop_zero]

/-- What one byte does; the total is counted apart. -/
theorem Holds.pushByte {total : Nat} (hcap : c.cap = cap)
    (hhead : c.head = seen.take ((cap + 1) / 2))
    (htail : c.tail = lastBytes (cap / 2) (seen.drop ((cap + 1) / 2))) (htotal : c.total = total)
    (byte : UInt8) :
    (c.pushByte byte).cap = cap ∧
      (c.pushByte byte).head = (seen ++ [byte]).take ((cap + 1) / 2) ∧
      (c.pushByte byte).tail = lastBytes (cap / 2) ((seen ++ [byte]).drop ((cap + 1) / 2)) ∧
      (c.pushByte byte).total = total := by
  subst hcap
  have hlength : c.head.length = min ((c.cap + 1) / 2) seen.length := by
    rw [hhead, List.length_take]
  rw [Capture.pushByte]
  by_cases hroom : c.head.length < (c.cap + 1) / 2
  · -- the head still grows, and the tail is empty
    rw [if_pos hroom]
    refine ⟨rfl, ?_, ?_, htotal⟩
    · show c.head ++ [byte] = _
      rw [hhead, List.take_of_length_le (by omega), List.take_of_length_le
        (by rw [List.length_append, List.length_singleton]; omega)]
    · show c.tail = _
      rw [htail, List.drop_eq_nil_of_le (by omega), List.drop_eq_nil_of_le
        (by rw [List.length_append, List.length_singleton]; omega)]
  · rw [if_neg hroom]
    have hsame : (seen ++ [byte]).take ((c.cap + 1) / 2) = seen.take ((c.cap + 1) / 2) :=
      List.take_append_of_le_length (by omega)
    have hmore : (seen ++ [byte]).drop ((c.cap + 1) / 2) = seen.drop ((c.cap + 1) / 2) ++ [byte] :=
      List.drop_append_of_le_length (by omega)
    by_cases hslide : 0 < c.cap / 2
    · rw [if_pos hslide]
      refine ⟨rfl, hhead.trans hsame.symm, ?_, htotal⟩
      show (if c.tail.length = c.cap / 2 then c.tail.drop 1 else c.tail) ++ [byte] = _
      rw [htail, hmore]
      exact lastBytes_concat hslide byte
    · rw [if_neg hslide]
      refine ⟨rfl, hhead.trans hsame.symm, ?_, htotal⟩
      have hzero : c.cap / 2 = 0 := by omega
      rw [htail, hzero, lastBytes, lastBytes, Nat.sub_zero, Nat.sub_zero,
        List.drop_eq_nil_of_le (Nat.le_refl _), List.drop_eq_nil_of_le (Nat.le_refl _)]

theorem Holds.push (h : Holds cap seen c) (bytes : List UInt8) :
    Holds cap (seen ++ bytes) (c.push bytes) := by
  have hloop : ∀ (bytes seen : List UInt8) (c : Capture) (total : Nat), c.cap = cap →
      c.head = seen.take ((cap + 1) / 2) →
      c.tail = lastBytes (cap / 2) (seen.drop ((cap + 1) / 2)) → c.total = total →
      (bytes.foldl Capture.pushByte c).cap = cap ∧
      (bytes.foldl Capture.pushByte c).head = (seen ++ bytes).take ((cap + 1) / 2) ∧
      (bytes.foldl Capture.pushByte c).tail =
        lastBytes (cap / 2) ((seen ++ bytes).drop ((cap + 1) / 2)) ∧
      (bytes.foldl Capture.pushByte c).total = total := by
    intro bytes
    induction bytes with
    | nil =>
      intro seen c total hcap hhead htail htotal
      rw [List.append_nil]
      exact ⟨hcap, hhead, htail, htotal⟩
    | cons byte bytes ih =>
      intro seen c total hcap hhead htail htotal
      obtain ⟨hcap', hhead', htail', htotal'⟩ := Holds.pushByte hcap hhead htail htotal byte
      have hrest := ih (seen ++ [byte]) (c.pushByte byte) total hcap' hhead' htail' htotal'
      rw [List.append_assoc, List.singleton_append] at hrest
      exact hrest
  obtain ⟨hcap, hhead, htail, htotal⟩ := hloop bytes seen
    { c with total := (c.total + bytes.length) % 2 ^ 64 } _ h.bound h.head h.tail rfl
  refine ⟨hcap, hhead, htail, ?_⟩
  have hsum : (bytes.foldl Capture.pushByte
      { c with total := (c.total + bytes.length) % 2 ^ 64 }).total =
        (c.total + bytes.length) % 2 ^ 64 := htotal
  rw [Capture.push, hsum, h.total, List.length_append]
  omega

theorem holds_ofChunks (cap : Nat) (chunks : List (List UInt8)) :
    Holds cap chunks.flatten (Capture.ofChunks cap chunks) := by
  have hloop : ∀ (chunks : List (List UInt8)) (seen : List UInt8) (c : Capture),
      Holds cap seen c → Holds cap (seen ++ chunks.flatten) (chunks.foldl Capture.push c) := by
    intro chunks
    induction chunks with
    | nil =>
      intro seen c h
      rw [List.flatten_nil, List.append_nil]
      exact h
    | cons bytes chunks ih =>
      intro seen c h
      rw [List.flatten_cons, ← List.append_assoc]
      exact ih _ _ (h.push bytes)
  have hnew : Holds cap [] (Capture.new cap) := by
    refine ⟨rfl, ?_, ?_, rfl⟩
    · exact List.take_nil.symm
    · rw [List.drop_nil, lastBytes, List.drop_nil]
      rfl
  exact hloop chunks [] _ hnew

end capture

/-! ### The text -/

/-- What the capture of a stream is to show, however the stream arrives: a short
    text as it is, and of a long stream the two ends around the number of bytes left
    out. It never holds more than its bound. -/
structure Captures (cap : Nat) (stream : List UInt8) : Prop where
  held : ∀ chunks, chunks.flatten = stream →
    (Capture.ofChunks cap chunks).head.length + (Capture.ofChunks cap chunks).tail.length ≤ cap
  independent : ∀ chunks chunks', chunks.flatten = stream → chunks'.flatten = stream →
    (Capture.ofChunks cap chunks).text = (Capture.ofChunks cap chunks').text
  short : ∀ chunks, chunks.flatten = stream → stream.length ≤ cap →
    ∀ text, stream = Utf8.encode text → (Capture.ofChunks cap chunks).text = text
  long : ∀ chunks, chunks.flatten = stream → cap < stream.length →
    (Capture.ofChunks cap chunks).text = Utf8.lossy (stream.take ((cap + 1) / 2)) ++
      Capture.marker (stream.length - cap) ++
      Utf8.lossy (stream.drop (stream.length - cap / 2))

section text

variable {cap : Nat} {stream : List UInt8} {c : Capture}

theorem Holds.length (h : Holds cap stream c) : c.head.length + c.tail.length =
    min cap stream.length := by
  rw [h.head, h.tail, length_lastBytes, List.length_take, List.length_drop]
  omega

/-- The text depends on the bytes only. -/
theorem Holds.text_eq {c' : Capture} (h : Holds cap stream c) (h' : Holds cap stream c') :
    c.text = c'.text := by
  rw [Capture.text, Capture.text, h.head, h.tail, h.total, h'.head, h'.tail, h'.total]

/-- Of a stream that fits, the halves are the two sides of a cut. -/
theorem Holds.text_short (h : Holds cap stream c) (hshort : stream.length ≤ cap) :
    c.text = Utf8.lossy (stream.take ((cap + 1) / 2)) ++
      Utf8.lossy (stream.drop ((cap + 1) / 2)) := by
  have hlength := h.length
  have htotal := h.total
  have hnone : ¬0 < c.total - (c.head.length + c.tail.length) := by
    have hle := Nat.mod_le stream.length (2 ^ 64)
    omega
  have htail : c.tail = stream.drop ((cap + 1) / 2) := by
    have hfits : (stream.drop ((cap + 1) / 2)).length - cap / 2 = 0 := by
      rw [List.length_drop]
      omega
    rw [h.tail, lastBytes, hfits, List.drop_zero]
  rw [Capture.text]
  simp only [if_neg hnone, List.append_nil]
  rw [h.head, htail]

theorem Holds.text_long (h : Holds cap stream c) (hlong : cap < stream.length) :
    c.text = Utf8.lossy (stream.take ((cap + 1) / 2)) ++
      (if 0 < stream.length % 2 ^ 64 - cap then Capture.marker (stream.length % 2 ^ 64 - cap)
        else []) ++
      Utf8.lossy (stream.drop (stream.length - cap / 2)) := by
  have hlength := h.length
  rw [Nat.min_eq_left (Nat.le_of_lt hlong)] at hlength
  have htail : c.tail = stream.drop (stream.length - cap / 2) := by
    rw [h.tail, lastBytes, List.drop_drop, List.length_drop]
    congr 1
    omega
  rw [Capture.text]
  simp only [hlength, h.total]
  rw [h.head, htail]

theorem marker_injective {a b : Nat} (h : Capture.marker a = Capture.marker b) : a = b := by
  have hsplit : ∀ n, Capture.marker n = "[... ".toList ++ (toString n).toList ++
      " bytes omitted ...]".toList := by
    intro n
    rw [Capture.marker, String.toList_append, String.toList_append]
  rw [hsplit, hsplit] at h
  have hdigits := List.append_cancel_left (List.append_cancel_right h)
  have hten : Nat.ofDigitChars 10 (Nat.toDigits 10 a) 0 =
      Nat.ofDigitChars 10 (Nat.toDigits 10 b) 0 := by
    rw [← Nat.toList_repr, ← Nat.toList_repr]
    exact congrArg (Nat.ofDigitChars 10 · 0) hdigits
  rwa [Nat.ofDigitChars_ten_toDigits, Nat.ofDigitChars_ten_toDigits] at hten

/-- The capture of a stream shows what it is to show exactly when the byte counter
    does not overflow and, of a text that fits but not into the head, the head ends
    between two characters. -/
theorem captures_iff (hcap : 1 ≤ cap) (hword : cap < 2 ^ 64) (stream : List UInt8) :
    Captures cap stream ↔ stream.length < 2 ^ 64 ∧
      (stream.length ≤ cap → (∃ text, stream = Utf8.encode text) →
        (cap + 1) / 2 < stream.length → Utf8.isBoundary stream ((cap + 1) / 2) = true) := by
  have hholds : ∀ chunks, chunks.flatten = stream →
      Holds cap stream (Capture.ofChunks cap chunks) := by
    intro chunks hchunks
    rw [← hchunks]
    exact holds_ofChunks cap chunks
  have hone : [stream].flatten = stream := by simp
  constructor
  · intro h
    refine ⟨?_, ?_⟩
    · by_contra hbig
      have htext := h.long [stream] hone (by omega)
      rw [(hholds [stream] hone).text_long (by omega)] at htext
      have hmarkers := List.append_cancel_left (List.append_cancel_right htext)
      -- the count that wrapped around is smaller
      have hless : stream.length % 2 ^ 64 - cap ≠ stream.length - cap := by omega
      by_cases hsome : 0 < stream.length % 2 ^ 64 - cap
      · rw [if_pos hsome] at hmarkers
        exact hless (marker_injective hmarkers)
      · rw [if_neg hsome, Capture.marker, String.toList_append, String.toList_append] at hmarkers
        cases hmarkers
    · rintro hshort ⟨text, rfl⟩ hinside
      have htext := h.short [Utf8.encode text] hone hshort text rfl
      rw [(hholds [Utf8.encode text] hone).text_short hshort] at htext
      exact (Utf8.lossy_cut_eq_iff (Nat.le_of_lt hinside)).mp htext
  · rintro ⟨hsmall, hseam⟩
    refine ⟨?_, ?_, ?_, ?_⟩
    · intro chunks hchunks
      have hlength := (hholds chunks hchunks).length
      omega
    · intro chunks chunks' hchunks hchunks'
      exact (hholds chunks hchunks).text_eq (hholds chunks' hchunks')
    · rintro chunks hchunks hshort text rfl
      rw [(hholds chunks hchunks).text_short hshort]
      by_cases hinside : (cap + 1) / 2 < (Utf8.encode text).length
      · exact (Utf8.lossy_cut_eq_iff (Nat.le_of_lt hinside)).mpr (hseam hshort ⟨text, rfl⟩ hinside)
      · rw [List.take_of_length_le (by omega), List.drop_eq_nil_of_le (by omega),
          Utf8.lossy_encode, Utf8.lossy_nil, List.append_nil]
    · intro chunks hchunks hlong
      rw [(hholds chunks hchunks).text_long hlong, Nat.mod_eq_of_lt hsmall, if_pos (by omega)]

end text

theorem captures_iff_ten : Captures 10 (Utf8.encode ['h', 'i']) ↔
    (Utf8.encode ['h', 'i']).length < 2 ^ 64 ∧
      ((Utf8.encode ['h', 'i']).length ≤ 10 → (∃ text, Utf8.encode ['h', 'i'] = Utf8.encode text) →
        (10 + 1) / 2 < (Utf8.encode ['h', 'i']).length →
          Utf8.isBoundary (Utf8.encode ['h', 'i']) ((10 + 1) / 2) = true) :=
  captures_iff (by decide) (by decide) (Utf8.encode ['h', 'i'])

/-- Of a text of three bytes that fits into four, the last character is cut in two. -/
theorem captures_seam : ¬Captures 4 (Utf8.encode ['a', 'é']) ∧
    (Capture.ofChunks 4 [Utf8.encode ['a', 'é']]).text = ['a', '\uFFFD', '\uFFFD'] := by
  have hchunks : [Utf8.encode ['a', 'é']].flatten = Utf8.encode ['a', 'é'] := by simp
  have htext : (Capture.ofChunks 4 [Utf8.encode ['a', 'é']]).text = ['a', '\uFFFD', '\uFFFD'] := by
    have hholds := holds_ofChunks 4 [Utf8.encode ['a', 'é']]
    rw [hchunks] at hholds
    obtain ⟨htake, hdrop⟩ := Utf8.cut_inside ['a'] [] 'é' (show 1 ≤ 'é'.utf8Size by decide)
    have htake : (Utf8.encode ['a', 'é']).take ((4 + 1) / 2) =
        Utf8.encode ['a'] ++ (String.utf8EncodeChar 'é').take 1 := htake
    have hdrop : (Utf8.encode ['a', 'é']).drop ((4 + 1) / 2) =
        (String.utf8EncodeChar 'é').drop 1 ++ Utf8.encode [] := hdrop
    rw [hholds.text_short (by decide), htake, hdrop, Utf8.lossy_encode_append,
      Utf8.lossy_take (by decide) (by decide),
      Utf8.lossy_continuations (Utf8.isContinuation_drop (by decide))]
    rfl
  refine ⟨?_, htext⟩
  intro h
  have hsame := h.short _ hchunks (by decide) _ rfl
  rw [htext] at hsame
  exact absurd hsame (by decide)

end Kyora.Shell
