import Kyora.Mcp.EventSize

/-! # The limit on server events

  After any bytes the counter holds the size of their event, the length of
  their unfinished line, and whether a CR came last. So a call refuses its
  chunk exactly if the chunk holds the first byte too many, however the bytes
  are cut.
-/

namespace Kyora.Mcp

/-! ### Lines, one byte after the other -/

/-- The lines of the bytes so far, the unfinished one, and whether an LF would
    complete a CRLF. -/
structure Cut where
  lines : List (List UInt8)
  part : List UInt8
  cr : Bool

def Cut.next (c : Cut) (byte : UInt8) : Cut :=
  if byte = 10 ∧ c.cr = true then { c with cr := false }
  else if byte = 13 ∨ byte = 10 then ⟨c.lines ++ [c.part], [], byte == 13⟩
  else ⟨c.lines, c.part ++ [byte], false⟩

def cut (stream : List UInt8) : Cut := stream.foldl Cut.next ⟨[], [], false⟩

theorem next_byte {byte : UInt8} (h13 : byte ≠ 13) (h10 : byte ≠ 10) (c : Cut) :
    c.next byte = ⟨c.lines, c.part ++ [byte], false⟩ := by
  rw [Cut.next, if_neg (fun h => h10 h.1), if_neg (fun h => h.elim h13 h10)]

theorem next_end {c : Cut} {byte : UInt8} (h : byte = 13 ∨ byte = 10)
    (hcrlf : ¬(byte = 10 ∧ c.cr = true)) :
    c.next byte = ⟨c.lines ++ [c.part], [], byte == 13⟩ := by
  rw [Cut.next, if_neg hcrlf, if_pos h]

theorem next_crlf {c : Cut} (h : c.cr = true) : c.next 10 = { c with cr := false } :=
  if_pos ⟨rfl, h⟩

/-- Without an LF to complete a CRLF, a CR is a line end like any other. -/
theorem foldl_cr {stream : List UInt8} (hlf : ∀ rest, stream ≠ 10 :: rest)
    (lines : List (List UInt8)) :
    (stream.foldl Cut.next ⟨lines, [], true⟩).lines =
        (stream.foldl Cut.next ⟨lines, [], false⟩).lines ∧
      (stream.foldl Cut.next ⟨lines, [], true⟩).part =
        (stream.foldl Cut.next ⟨lines, [], false⟩).part := by
  cases stream with
  | nil => exact ⟨rfl, rfl⟩
  | cons byte rest =>
    have hne : byte ≠ 10 := fun h => hlf rest (by rw [h])
    have hnext : Cut.next ⟨lines, [], true⟩ byte = Cut.next ⟨lines, [], false⟩ byte := by
      simp only [Cut.next, hne, false_and, if_false]
    rw [List.foldl_cons, List.foldl_cons, hnext]
    exact ⟨rfl, rfl⟩

/-- The lines that the SSE parser sees. -/
theorem foldl_next (part stream : List UInt8) (lines : List (List UInt8)) :
    (stream.foldl Cut.next ⟨lines, part, false⟩).lines = lines ++ Sse.terminated part stream ∧
      (stream.foldl Cut.next ⟨lines, part, false⟩).part = unfinished part stream := by
  induction part, stream using Sse.terminated.induct generalizing lines with
  | case1 part => exact ⟨(List.append_nil lines).symm, rfl⟩
  | case2 part stream ih =>
    obtain ⟨hlines, hpart⟩ := ih (lines ++ [part])
    rw [List.foldl_cons, next_end (.inr rfl) (by simp), Sse.terminated, unfinished]
    refine ⟨?_, hpart⟩
    rw [show ((10 : UInt8) == 13) = false from rfl, hlines, List.append_assoc]
    rfl
  | case3 part stream ih =>
    obtain ⟨hlines, hpart⟩ := ih (lines ++ [part])
    rw [List.foldl_cons, next_end (.inl rfl) (by simp), List.foldl_cons, next_crlf rfl,
      Sse.terminated, unfinished]
    refine ⟨?_, hpart⟩
    rw [hlines, List.append_assoc]
    rfl
  | case4 part stream hlf ih =>
    obtain ⟨hlines, hpart⟩ := ih (lines ++ [part])
    obtain ⟨hlines', hpart'⟩ := foldl_cr hlf (lines ++ [part])
    rw [List.foldl_cons, next_end (.inl rfl) (by simp), Sse.terminated_cr part hlf,
      unfinished.eq_4 _ _ hlf]
    refine ⟨?_, hpart'.trans hpart⟩
    rw [show ((13 : UInt8) == 13) = true from rfl, hlines', hlines, List.append_assoc]
    rfl
  | case5 part byte stream h10 h13lf h13 ih =>
    rw [List.foldl_cons, next_byte h13 h10, Sse.terminated_byte part h13 h10,
      unfinished.eq_5 _ _ _ h10 h13lf h13]
    exact ih lines

theorem cut_lines (stream : List UInt8) : (cut stream).lines = Sse.terminated [] stream :=
  (foldl_next [] stream []).1

theorem cut_part (stream : List UInt8) : (cut stream).part = unfinished [] stream :=
  (foldl_next [] stream []).2

/-! ### The size of an event -/

/-- The bytes since the last blank line. -/
def Cut.bytes (c : Cut) : List UInt8 := (c.lines.rtakeWhile (· ≠ [])).flatten ++ c.part

theorem eventBytes_eq (stream : List UInt8) : eventBytes stream = (cut stream).bytes := by
  rw [eventBytes, Cut.bytes, cut_lines, cut_part]

theorem bytes_byte {byte : UInt8} (h13 : byte ≠ 13) (h10 : byte ≠ 10) (c : Cut) :
    (c.next byte).bytes = c.bytes ++ [byte] := by
  rw [next_byte h13 h10, Cut.bytes, Cut.bytes, List.append_assoc]

/-- A blank line ends the event. -/
theorem bytes_end {c : Cut} {byte : UInt8} (h : byte = 13 ∨ byte = 10)
    (hcrlf : ¬(byte = 10 ∧ c.cr = true)) :
    (c.next byte).bytes = if c.part = [] then [] else c.bytes := by
  rw [next_end h hcrlf, Cut.bytes, List.append_nil, List.rtakeWhile_concat]
  by_cases hpart : c.part = []
  · rw [if_neg (by simpa using hpart), if_pos hpart]
    rfl
  · rw [if_pos (by simpa using hpart), if_neg hpart, Cut.bytes, List.flatten_append]
    simp

theorem bytes_crlf {c : Cut} (h : c.cr = true) : (c.next 10).bytes = c.bytes := by
  rw [next_crlf h]
  rfl

/-- Only bytes inside a line make an event longer. -/
theorem bytes_next_le (c : Cut) (byte : UInt8) :
    (c.next byte).bytes.length ≤ c.bytes.length ∨
      inLine byte = true ∧ (c.next byte).bytes.length = c.bytes.length + 1 := by
  by_cases hend : byte = 13 ∨ byte = 10
  · left
    by_cases hcrlf : byte = 10 ∧ c.cr = true
    · rw [hcrlf.1, bytes_crlf hcrlf.2]
    · rw [bytes_end hend hcrlf]
      split
      · exact Nat.zero_le _
      · exact Nat.le_refl _
  · right
    obtain ⟨h13, h10⟩ := not_or.mp hend
    refine ⟨decide_eq_true ⟨h13, h10⟩, ?_⟩
    rw [bytes_byte h13 h10, List.length_append, List.length_singleton]

/-! ### The first byte too many -/

/-- Where the limit is exceeded first, from some bytes on. -/
def overAt (limit : Nat) (c : Cut) : List UInt8 → Option Nat
  | [] => none
  | byte :: bytes =>
    if limit < (c.next byte).bytes.length then some 0
    else (overAt limit (c.next byte) bytes).map (· + 1)

theorem find_overAt (limit : Nat) (c : Cut) (bytes : List UInt8) :
    (List.range bytes.length).find? (fun n =>
      decide (limit < ((bytes.take (n + 1)).foldl Cut.next c).bytes.length)) =
        overAt limit c bytes := by
  induction bytes generalizing c with
  | nil => rfl
  | cons byte bytes ih =>
    rw [List.length_cons, List.range_succ_eq_map, List.find?_cons, overAt]
    simp only [Nat.zero_add, List.take_succ_cons, List.take_zero, List.foldl_cons, List.foldl_nil,
      List.find?_map]
    by_cases h : limit < (c.next byte).bytes.length
    · rw [if_pos h, decide_eq_true h]
    · rw [if_neg h, decide_eq_false h, ← ih]
      rfl

theorem firstOver_eq (limit : Nat) (stream : List UInt8) :
    firstOver limit stream = overAt limit ⟨[], [], false⟩ stream := by
  rw [← find_overAt, firstOver]
  simp only [eventBytes_eq]
  rfl

theorem overAt_append (limit : Nat) (c : Cut) (xs ys : List UInt8) :
    overAt limit c (xs ++ ys) = (overAt limit c xs).or
      ((overAt limit (xs.foldl Cut.next c) ys).map (· + xs.length)) := by
  induction xs generalizing c with
  | nil => simp [overAt]
  | cons x xs ih =>
    rw [List.cons_append, overAt, overAt, ih]
    split
    · rfl
    · rw [List.foldl_cons]
      cases overAt limit (c.next x) xs with
      | some n => rfl
      | none =>
        cases overAt limit (xs.foldl Cut.next (c.next x)) ys with
        | none => rfl
        | some n => simp only [Option.map_none, Option.none_or, Option.map_some, List.length_cons,
            Nat.add_assoc]

/-! ### The counter -/

/-- The counter after some bytes, none of which was too many. -/
structure Tracks (limit : Nat) (s : EventSize) (c : Cut) : Prop where
  bound : s.limit = limit
  size : s.size = c.bytes.length
  line : s.line = c.part.length
  afterCr : s.afterCr = c.cr
  within : s.size ≤ limit

theorem tracks_new (limit : Nat) : Tracks limit (EventSize.new limit) ⟨[], [], false⟩ :=
  ⟨rfl, rfl, rfl, rfl, Nat.zero_le _⟩

theorem tracks_crlf {limit : Nat} {s : EventSize} {c : Cut} (h : Tracks limit s c)
    (hcr : c.cr = true) : Tracks limit { s with afterCr := false } (c.next 10) where
  bound := h.bound
  size := by rw [bytes_crlf hcr, h.size]
  line := by rw [next_crlf hcr, h.line]
  afterCr := by rw [next_crlf hcr]
  within := h.within

theorem tracks_end {limit : Nat} {s : EventSize} {c : Cut} {byte : UInt8} (h : Tracks limit s c)
    (hend : byte = 13 ∨ byte = 10) (hcrlf : ¬(byte = 10 ∧ c.cr = true)) :
    Tracks limit
      { s with afterCr := byte == 13, size := if s.line = 0 then 0 else s.size, line := 0 }
      (c.next byte) := by
  have hsize : (if s.line = 0 then 0 else s.size) = (c.next byte).bytes.length := by
    rw [bytes_end hend hcrlf, h.line, h.size]
    by_cases hpart : c.part = []
    · rw [if_pos hpart, if_pos (by rw [hpart, List.length_nil]), List.length_nil]
    · rw [if_neg hpart, if_neg (fun hlen => hpart (List.length_eq_zero_iff.mp hlen))]
  constructor
  · exact h.bound
  · exact hsize
  · rw [next_end hend hcrlf, List.length_nil]
  · rw [next_end hend hcrlf]
  · have hle := h.within
    show (if s.line = 0 then 0 else s.size) ≤ limit
    split <;> omega

/-- A byte inside a line is counted, and is the byte too many or not. -/
theorem tracks_byte {limit : Nat} {s : EventSize} {c : Cut} {byte : UInt8} (h : Tracks limit s c)
    (h13 : byte ≠ 13) (h10 : byte ≠ 10) (hle : (c.next byte).bytes.length ≤ limit) :
    Tracks limit { s with afterCr := false, line := s.line + 1, size := s.size + 1 }
      (c.next byte) := by
  have hsize : s.size + 1 = (c.next byte).bytes.length := by
    rw [bytes_byte h13 h10, List.length_append, h.size, List.length_singleton]
  constructor
  · exact h.bound
  · exact hsize
  · rw [next_byte h13 h10, List.length_append, h.line, List.length_singleton]
  · rw [next_byte h13 h10]
  · rw [← hsize] at hle
    exact hle

/-- One call refuses its bytes exactly if they hold the first byte too many. -/
theorem feed_tracks {limit : Nat} {s : EventSize} {c : Cut} (h : Tracks limit s c)
    (bytes : List UInt8) :
    (s.feed bytes).2 = (overAt limit c bytes).isNone ∧
      ((s.feed bytes).2 = true → Tracks limit (s.feed bytes).1 (bytes.foldl Cut.next c)) := by
  induction bytes generalizing s c with
  | nil => exact ⟨rfl, fun _ => h⟩
  | cons byte bytes ih =>
    -- A byte that leaves the event within the limit leads to the state after it.
    have hwithin {s' : EventSize} (h' : Tracks limit s' (c.next byte))
        (hfeed : s.feed (byte :: bytes) = s'.feed bytes) :
        (s.feed (byte :: bytes)).2 = (overAt limit c (byte :: bytes)).isNone ∧
          ((s.feed (byte :: bytes)).2 = true →
            Tracks limit (s.feed (byte :: bytes)).1 ((byte :: bytes).foldl Cut.next c)) := by
      have hle : ¬limit < (c.next byte).bytes.length := by
        rw [← h'.size]
        exact Nat.not_lt.mpr h'.within
      obtain ⟨hok, htracks⟩ := ih h'
      rw [hfeed, overAt, if_neg hle, Option.isNone_map]
      exact ⟨hok, htracks⟩
    by_cases hcrlf : byte = 10 ∧ c.cr = true
    · obtain ⟨rfl, hcr⟩ := hcrlf
      apply hwithin (tracks_crlf h hcr)
      rw [EventSize.feed, if_pos ⟨rfl, h.afterCr.trans hcr⟩]
    have hcrlf' : ¬(byte = 10 ∧ s.afterCr = true) := by
      rw [h.afterCr]
      exact hcrlf
    by_cases hend : byte = 13 ∨ byte = 10
    · apply hwithin (tracks_end h hend hcrlf)
      rw [EventSize.feed, if_neg hcrlf', if_pos hend]
    obtain ⟨h13, h10⟩ := not_or.mp hend
    have hsize : (c.next byte).bytes.length = s.size + 1 := by
      rw [bytes_byte h13 h10, List.length_append, h.size, List.length_singleton]
    by_cases hover : limit < (c.next byte).bytes.length
    · have hgt : s.size + 1 > s.limit := by
        rw [h.bound, ← hsize]
        exact hover
      have hfeed : (s.feed (byte :: bytes)).2 = false := by
        rw [EventSize.feed, if_neg hcrlf', if_neg hend]
        simp only [hgt, if_true]
      rw [hfeed, overAt, if_pos hover]
      exact ⟨rfl, fun hok => absurd hok Bool.false_ne_true⟩
    · apply hwithin (tracks_byte h h13 h10 (Nat.not_lt.mp hover))
      have hle : ¬s.size + 1 > s.limit := by
        rw [h.bound, ← hsize]
        exact hover
      rw [EventSize.feed, if_neg hcrlf', if_neg hend]
      simp only [hle, if_false]

/-! ### Calls and chunks -/

theorem overAt_lt {limit : Nat} {c : Cut} {bytes : List UInt8} {n : Nat}
    (h : overAt limit c bytes = some n) : n < bytes.length := by
  induction bytes generalizing c n with
  | nil => exact absurd h (by rw [overAt]; simp)
  | cons byte bytes ih =>
    rw [overAt] at h
    by_cases hover : limit < (c.next byte).bytes.length
    · rw [if_pos hover, Option.some.injEq] at h
      rw [← h]
      exact Nat.zero_lt_succ _
    · rw [if_neg hover, Option.map_eq_some_iff] at h
      obtain ⟨m, hm, rfl⟩ := h
      exact Nat.succ_lt_succ (ih hm)

/-- The first call that refuses is the one whose chunk holds the first byte too
    many. -/
theorem feeds_tracks {limit : Nat} {s : EventSize} {c : Cut} (h : Tracks limit s c)
    (chunks : List (List UInt8)) (i : Nat) :
    (s.feeds chunks).findIdx? (!·) = some i ↔
      ∃ n, overAt limit c chunks.flatten = some n ∧
        (chunks.take i).flatten.length ≤ n ∧ n < (chunks.take (i + 1)).flatten.length := by
  induction chunks generalizing s c i with
  | nil => simp [EventSize.feeds, overAt]
  | cons chunk chunks ih =>
    obtain ⟨hok, htracks⟩ := feed_tracks h chunk
    rw [EventSize.feeds, List.findIdx?_cons, List.flatten_cons, overAt_append, hok]
    cases hover : overAt limit c chunk with
    | some m =>
      have hm := overAt_lt hover
      simp only [Option.isNone_some, Bool.not_false, if_true, Option.some_or, Option.some.injEq,
        exists_eq_left']
      cases i with
      | zero => simpa using hm
      | succ i =>
        simp only [List.take_succ_cons, List.flatten_cons, List.length_append]
        omega
    | none =>
      rw [hover] at hok
      have hrest := ih (htracks hok)
      simp only [Option.isNone_none, Bool.not_true, Bool.false_eq_true, if_false, Option.none_or,
        Option.map_eq_some_iff]
      cases i with
      | zero =>
        constructor
        · rintro ⟨j, -, hj⟩
          exact absurd hj (Nat.succ_ne_zero j)
        · rintro ⟨n, ⟨m, -, rfl⟩, -, hn⟩
          rw [List.take_succ_cons, List.take_zero, List.flatten_cons, List.flatten_nil,
            List.append_nil] at hn
          exact absurd hn (by omega)
      | succ i =>
        simp only [List.take_succ_cons, List.flatten_cons, List.length_append]
        constructor
        · rintro ⟨j, hj, hji⟩
          obtain ⟨m, hm, hle, hlt⟩ := (hrest j).mp hj
          rw [Nat.succ.inj hji] at hle hlt
          exact ⟨m + chunk.length, ⟨m, hm, rfl⟩, by omega, by omega⟩
        · rintro ⟨n, ⟨m, hm, rfl⟩, hle, hlt⟩
          exact ⟨i, (hrest i).mpr ⟨m, hm, by omega, by omega⟩, rfl⟩

theorem feeds_none {limit : Nat} {s : EventSize} {c : Cut} (h : Tracks limit s c)
    (chunks : List (List UInt8)) :
    (s.feeds chunks).findIdx? (!·) = none ↔ overAt limit c chunks.flatten = none := by
  induction chunks generalizing s c with
  | nil => exact ⟨fun _ => rfl, fun _ => rfl⟩
  | cons chunk chunks ih =>
    obtain ⟨hok, htracks⟩ := feed_tracks h chunk
    rw [EventSize.feeds, List.findIdx?_cons, List.flatten_cons, overAt_append, hok]
    cases hover : overAt limit c chunk with
    | some n => simp
    | none =>
      rw [hover] at hok
      simpa using ih (htracks hok)

/-- A chunk becomes an error exactly if its call refuses it. -/
theorem events_isOk (s : EventSize) (chunks : List (List UInt8)) :
    (events s (chunks.map .ok)).map Except.isOk = s.feeds chunks := by
  induction chunks generalizing s with
  | nil => rfl
  | cons chunk chunks ih =>
    rw [List.map_cons, events, List.map_cons, ih, EventSize.feeds]
    cases (s.feed chunk).2 <;> rfl

/-! ### The events refused -/

/-- The byte too many is the first above the limit, and inside a line. -/
theorem overAt_some {limit : Nat} {c : Cut} {bytes : List UInt8} {n : Nat}
    (hc : c.bytes.length ≤ limit) (h : overAt limit c bytes = some n) :
    (∃ byte, bytes[n]? = some byte ∧ inLine byte = true) ∧
      ((bytes.take n).foldl Cut.next c).bytes.length = limit ∧
      ((bytes.take (n + 1)).foldl Cut.next c).bytes.length = limit + 1 := by
  induction bytes generalizing c n with
  | nil => exact absurd h (by rw [overAt]; simp)
  | cons byte bytes ih =>
    rw [overAt] at h
    by_cases hover : limit < (c.next byte).bytes.length
    · rw [if_pos hover, Option.some.injEq] at h
      subst h
      rcases bytes_next_le c byte with hle | ⟨hline, hnext⟩
      · exact absurd hover (by omega)
      · refine ⟨⟨byte, rfl, hline⟩, ?_, ?_⟩
        · show c.bytes.length = limit
          omega
        · show (c.next byte).bytes.length = limit + 1
          omega
    · rw [if_neg hover, Option.map_eq_some_iff] at h
      obtain ⟨m, hm, rfl⟩ := h
      exact ih (Nat.not_lt.mp hover) hm

theorem overAt_none {limit : Nat} {c : Cut} {bytes : List UInt8} (hc : c.bytes.length ≤ limit) :
    overAt limit c bytes = none ↔
      ∀ n, ((bytes.take n).foldl Cut.next c).bytes.length ≤ limit := by
  induction bytes generalizing c with
  | nil => simpa [overAt] using hc
  | cons byte bytes ih =>
    rw [overAt]
    by_cases hover : limit < (c.next byte).bytes.length
    · rw [if_pos hover]
      constructor
      · intro h
        exact absurd h (Option.some_ne_none 0)
      · intro h
        exact absurd (h 1) (Nat.not_le.mpr hover)
    · rw [if_neg hover, Option.map_eq_none_iff, ih (Nat.not_lt.mp hover)]
      constructor
      · intro h n
        cases n with
        | zero => exact hc
        | succ n => exact h n
      · intro h n
        exact h (n + 1)

/-! ### An event without end -/

theorem count_next (c : Cut) (byte : UInt8) : c.lines.count [] ≤ (c.next byte).lines.count [] := by
  rw [Cut.next]
  split
  · exact Nat.le_refl _
  · split
    · rw [List.count_append]
      exact Nat.le_add_right _ _
    · exact Nat.le_refl _

theorem count_foldl (c : Cut) (bytes : List UInt8) :
    c.lines.count [] ≤ (bytes.foldl Cut.next c).lines.count [] := by
  induction bytes generalizing c with
  | nil => exact Nat.le_refl _
  | cons byte bytes ih => exact (count_next c byte).trans (ih (c.next byte))

/-- A byte that ends no blank line adds itself if it is inside a line. -/
theorem bytes_next {c : Cut} {byte : UInt8}
    (h : (c.next byte).lines.count [] = c.lines.count []) :
    (c.next byte).bytes = c.bytes ++ [byte].filter inLine := by
  by_cases hend : byte = 13 ∨ byte = 10
  · have hline : inLine byte = false := decide_eq_false fun hne => hend.elim hne.1 hne.2
    rw [List.filter_singleton, hline, cond_false, List.append_nil]
    by_cases hcrlf : byte = 10 ∧ c.cr = true
    · rw [hcrlf.1, bytes_crlf hcrlf.2]
    · rw [bytes_end hend hcrlf, if_neg]
      intro hpart
      rw [next_end hend hcrlf, List.count_append, hpart, List.count_singleton_self] at h
      omega
  · obtain ⟨h13, h10⟩ := not_or.mp hend
    have hline : inLine byte = true := decide_eq_true ⟨h13, h10⟩
    rw [bytes_byte h13 h10, List.filter_singleton, hline, cond_true]

/-- Until the next blank line the event grows by all bytes inside lines. -/
theorem bytes_foldl {c : Cut} {bytes : List UInt8}
    (h : (bytes.foldl Cut.next c).lines.count [] = c.lines.count []) :
    (bytes.foldl Cut.next c).bytes = c.bytes ++ bytes.filter inLine := by
  induction bytes generalizing c with
  | nil => exact (List.append_nil _).symm
  | cons byte bytes ih =>
    have hle := count_next c byte
    have hle' := count_foldl (c.next byte) bytes
    rw [List.foldl_cons] at h ⊢
    rw [ih (by omega), bytes_next (by omega), List.append_assoc, ← List.filter_append]
    rfl

/-- What follows a blank line, up to the next, is one event. -/
theorem eventBytes_append {xs ys : List UInt8} (hnew : eventBytes xs = [])
    (h : (Sse.terminated [] (xs ++ ys)).count [] = (Sse.terminated [] xs).count []) (n : Nat) :
    (eventBytes (xs ++ ys.take n)).length = (ys.take n).countP inLine := by
  have hcut (zs : List UInt8) : cut (xs ++ zs) = zs.foldl Cut.next (cut xs) := List.foldl_append
  rw [← cut_lines, ← cut_lines, hcut] at h
  have hle := count_foldl (cut xs) (ys.take n)
  have hle' := count_foldl ((ys.take n).foldl Cut.next (cut xs)) (ys.drop n)
  rw [← List.foldl_append, List.take_append_drop] at hle'
  rw [eventBytes_eq, hcut, bytes_foldl (Nat.le_antisymm (hle'.trans_eq h) hle), ← eventBytes_eq,
    hnew, List.nil_append, List.countP_eq_length_filter]

/-- An event that never ends is refused at its first byte above the limit. -/
theorem firstOver_append {limit : Nat} {xs ys : List UInt8} (hxs : firstOver limit xs = none)
    (hnew : eventBytes xs = [])
    (h : (Sse.terminated [] (xs ++ ys)).count [] = (Sse.terminated [] xs).count [])
    (hover : limit < ys.countP inLine) :
    ∃ n, firstOver limit (xs ++ ys) = some (xs.length + n) ∧
      (ys.take n).countP inLine = limit ∧ (ys.take (n + 1)).countP inLine = limit + 1 := by
  have hbytes := eventBytes_append hnew h
  rw [firstOver_eq, overAt_append, ← firstOver_eq, hxs, Option.none_or]
  have hcut (zs : List UInt8) :
      zs.foldl Cut.next (xs.foldl Cut.next ⟨[], [], false⟩) = cut (xs ++ zs) :=
    List.foldl_append.symm
  have hc : (xs.foldl Cut.next ⟨[], [], false⟩).bytes.length ≤ limit := by
    rw [← cut, ← eventBytes_eq, hnew]
    exact Nat.zero_le _
  cases hys : overAt limit (xs.foldl Cut.next ⟨[], [], false⟩) ys with
  | none =>
    have hle := (overAt_none hc).mp hys ys.length
    rw [hcut, ← eventBytes_eq, hbytes, List.take_length] at hle
    exact absurd hover (Nat.not_lt.mpr hle)
  | some n =>
    obtain ⟨-, hn, hn'⟩ := overAt_some hc hys
    rw [hcut, ← eventBytes_eq, hbytes] at hn hn'
    refine ⟨n, ?_, hn, hn'⟩
    rw [Option.map_some, Nat.add_comm]

/-! ### The limit -/

/-- The call that refuses is the one whose chunk holds the first byte at which
    the event, the bytes since the last blank line without line ends, exceeds the
    limit. Events within the limit are never refused, one without end always is. -/
theorem event_refused (limit : Nat) (chunks : List (List UInt8)) :
    (∀ i, firstRefused limit chunks = some i ↔
      ∃ n, firstOver limit chunks.flatten = some n ∧
        (chunks.take i).flatten.length ≤ n ∧ n < (chunks.take (i + 1)).flatten.length) ∧
    (firstRefused limit chunks = none ↔
      ∀ n, (eventBytes (chunks.flatten.take n)).length ≤ limit) ∧
    (∀ n, firstOver limit chunks.flatten = some n →
      (∃ byte, chunks.flatten[n]? = some byte ∧ inLine byte = true) ∧
      (eventBytes (chunks.flatten.take n)).length = limit ∧
      (eventBytes (chunks.flatten.take (n + 1))).length = limit + 1) ∧
    (∀ before event, chunks.flatten = before ++ event →
      firstOver limit before = none → eventBytes before = [] →
      (Sse.terminated [] (before ++ event)).count [] = (Sse.terminated [] before).count [] →
      limit < event.countP inLine →
      ∃ n, firstOver limit chunks.flatten = some (before.length + n) ∧
        (event.take n).countP inLine = limit ∧ (event.take (n + 1)).countP inLine = limit + 1) ∧
    (∀ others : List (List UInt8), others.flatten = chunks.flatten →
      (firstRefused limit others = none ↔ firstRefused limit chunks = none)) ∧
    ((events (EventSize.new limit) (chunks.map .ok)).findIdx? (!·.isOk) =
      firstRefused limit chunks) := by
  have hcalls (chunks : List (List UInt8)) (i : Nat) : firstRefused limit chunks = some i ↔
      ∃ n, firstOver limit chunks.flatten = some n ∧
        (chunks.take i).flatten.length ≤ n ∧ n < (chunks.take (i + 1)).flatten.length := by
    rw [firstOver_eq]
    exact feeds_tracks (tracks_new limit) chunks i
  have hnone (chunks : List (List UInt8)) : firstRefused limit chunks = none ↔
      ∀ n, (eventBytes (chunks.flatten.take n)).length ≤ limit := by
    simp only [eventBytes_eq]
    exact (feeds_none (tracks_new limit) chunks).trans (overAt_none (Nat.zero_le limit))
  refine ⟨hcalls chunks, hnone chunks, ?_, ?_, ?_, ?_⟩
  · intro n hn
    rw [firstOver_eq] at hn
    simp only [eventBytes_eq]
    exact overAt_some (Nat.zero_le limit) hn
  · intro before event hsplit hbefore hnew hevent hover
    rw [hsplit]
    exact firstOver_append hbefore hnew hevent hover
  · intro others hflatten
    rw [hnone, hnone, hflatten]
  · rw [firstRefused, ← events_isOk, List.findIdx?_map]
    rfl

end Kyora.Mcp
