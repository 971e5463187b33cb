import Kyora.Secrets.Cut
import Kyora.Shell.Capture

/-! # The stderr tail of a server

  A ring keeps the last bytes a server writes to stderr, with room in front of the
  part that is shown for the longest spelling of a value. The ring may start inside
  anything: a character, an escape or a value. What is shown after a failed start
  withholds every byte of a value of the whole stream.
-/

namespace Kyora

open Shell (lastBytes length_lastBytes lastBytes_append lastBytes_of_le)

/-- `defaults::STDERR_TAIL_BYTES`. -/
def stderrTailBytes : Nat := 2048

/-- The last stderr bytes, and whether earlier ones were discarded. -/
structure Tail where
  bytes : List UInt8
  cut : Bool
  deriving DecidableEq, Repr

namespace Tail

/-- One chunk read from the pipe. -/
def push (capacity : Nat) (tail : Tail) (chunk : List UInt8) : Tail :=
  let bytes := tail.bytes ++ chunk
  let excess := bytes.length - capacity
  if 0 < excess then ⟨bytes.drop excess, true⟩ else { tail with bytes }

/-- The drain: all chunks until the pipe is closed. -/
def drain (capacity : Nat) (chunks : List (List UInt8)) : Tail :=
  chunks.foldl (push capacity) ⟨[], false⟩

/-- The rest of a character that is cut off by the start of the ring. -/
def splitLength (tail : Tail) : Nat :=
  if tail.cut then ((tail.bytes.take 3).takeWhile Utf8.isContinuation).length else 0

/-- After a cut, a split character is skipped. -/
def whole (tail : Tail) : List UInt8 := tail.bytes.drop tail.splitLength

end Tail

/-- A server that was started: its stderr, and the room in front of what is shown. -/
structure Process where
  stderr : Tail
  slack : Nat
  deriving DecidableEq, Repr

namespace Process

/-- `Process::spawn`, when its drain has read some chunks. -/
def spawn (s : Secrets) (chunks : List (List UInt8)) : Process :=
  let slack := s.reach
  ⟨Tail.drain (stderrTailBytes + slack) chunks, slack⟩

/-- The text that `Process::kill` returns. -/
def kill (search : Search) (s : Secrets) (p : Process) : Option (List Char) :=
  let tail := p.stderr
  let text := Utf8.encode (Utf8.lossy tail.whole)
  let out := if tail.cut then s.redactCut search text (p.slack - tail.splitLength)
    else s.redact search text
  (out.bind Utf8.decode).map trim

end Process

/-! ### The ring -/

namespace Tail

/-- A tail that holds the last bytes of a stream, all of it unless it is cut. -/
structure Ends (capacity : Nat) (stream : List UInt8) (tail : Tail) : Prop where
  bytes : tail.bytes = lastBytes capacity stream
  cut : tail.cut = decide (capacity < stream.length)

theorem Ends.push {capacity : Nat} {stream : List UInt8} {tail : Tail}
    (h : Ends capacity stream tail) (chunk : List UInt8) :
    Ends capacity (stream ++ chunk) (tail.push capacity chunk) := by
  have hlength := length_lastBytes capacity stream
  unfold Tail.push
  by_cases hexcess : 0 < (tail.bytes ++ chunk).length - capacity
  · simp only [if_pos hexcess]
    rw [h.bytes, List.length_append] at hexcess
    refine ⟨?_, ?_⟩
    · rw [← lastBytes_append, ← h.bytes]
      rfl
    · symm
      rw [decide_eq_true_eq, List.length_append]
      omega
  · simp only [if_neg hexcess]
    rw [h.bytes, List.length_append] at hexcess
    refine ⟨?_, ?_⟩
    · rw [← lastBytes_append, ← h.bytes, lastBytes_of_le]
      rw [h.bytes, List.length_append]
      omega
    · rw [h.cut, decide_eq_decide, List.length_append]
      omega

/-- However the stream arrives, the drain keeps its last bytes. -/
theorem ends_drain (capacity : Nat) (chunks : List (List UInt8)) :
    Ends capacity chunks.flatten (drain capacity chunks) := by
  have hrun : ∀ {tail stream}, Ends capacity stream tail →
      Ends capacity (stream ++ chunks.flatten) (chunks.foldl (push capacity) tail) := by
    induction chunks with
    | nil =>
      intro tail stream h
      rw [List.flatten_nil, List.append_nil]
      exact h
    | cons chunk chunks ih =>
      intro tail stream h
      rw [List.flatten_cons, ← List.append_assoc]
      exact ih (h.push chunk)
  have hempty : Ends capacity [] ⟨[], false⟩ :=
    ⟨(lastBytes_of_le (Nat.zero_le capacity)).symm, rfl⟩
  exact hrun hempty

end Tail

/-! ### The first whole character -/

theorem takeWhile_continuation_encode (text : List Char) (n : Nat) :
    ((Utf8.encode text).take n).takeWhile Utf8.isContinuation = [] := by
  cases text with
  | nil => rw [Utf8.encode_nil, List.take_nil, List.takeWhile_nil]
  | cons c text =>
    obtain ⟨first, others, hshape⟩ := Utf8.exists_shape c
    cases n with
    | zero => rfl
    | succ n =>
      rw [Utf8.encode_cons, hshape.eq, List.cons_append, List.take_succ_cons,
        List.takeWhile_cons_of_neg (by rw [hshape.starts]; decide)]

/-- Without the rest of a split character, the end of a text is a text, and no later
    character boundary is left out. -/
theorem exists_whole {text : List Char} {i : Nat} (h : i ≤ (Utf8.encode text).length) :
    ∃ pre rest, text = pre ++ rest ∧
      (Utf8.encode pre).length =
        i + ((((Utf8.encode text).drop i).take 3).takeWhile Utf8.isContinuation).length ∧
      ∀ before after, text = before ++ after → i ≤ (Utf8.encode before).length →
        (Utf8.encode pre).length ≤ (Utf8.encode before).length := by
  rcases Utf8.exists_cut h with ⟨before, after, rfl, rfl⟩ |
    ⟨before, c, after, k, rfl, hpos, hk, rfl⟩
  · refine ⟨before, after, rfl, ?_, fun _ _ _ hle => hle⟩
    rw [Utf8.encode_append, List.drop_left, takeWhile_continuation_encode]
    rfl
  · have hlength : (Utf8.encode (before ++ [c])).length =
        (Utf8.encode before).length + c.utf8Size := by
      rw [Utf8.encode_append, Utf8.encode_cons, Utf8.encode_nil, List.append_nil,
        List.length_append, String.length_utf8EncodeChar]
    have hsize : ((String.utf8EncodeChar c).drop k).length = c.utf8Size - k := by
      rw [List.length_drop, String.length_utf8EncodeChar]
    have hfour : c.utf8Size ≤ 4 := c.utf8Size_le_four
    refine ⟨before ++ [c], after, by simp, ?_, ?_⟩
    · -- the rest of the character is what is skipped
      rw [(Utf8.cut_inside before after c (Nat.le_of_lt hk)).2, List.take_append,
        List.take_of_length_le (by omega),
        List.takeWhile_append_of_pos (Utf8.isContinuation_drop hpos),
        takeWhile_continuation_encode, List.append_nil, hlength, hsize]
      omega
    · intro before' after' hsplit hle
      obtain ⟨mid, rfl, hmid⟩ := Utf8.exists_append_of_le hsplit (by omega)
      cases mid with
      | nil =>
        rw [List.append_nil] at hle
        omega
      | cons c' mid =>
        obtain rfl := (List.cons.inj hmid).1
        rw [hlength, Utf8.encode_append, Utf8.encode_cons, List.length_append, List.length_append,
          String.length_utf8EncodeChar]
        omega

/-! ### What is shown -/

section shown

variable {search : Search} {s : Secrets}

theorem Secrets.longest_le (s : Secrets) : s.longest ≤ maxSecretBytes := by
  have hfold : ∀ (xs : List Nat) (n : Nat), n ≤ maxSecretBytes →
      (∀ x ∈ xs, x ≤ maxSecretBytes) → xs.foldl max n ≤ maxSecretBytes := by
    intro xs
    induction xs with
    | nil => exact fun n hn _ => hn
    | cons x xs ih =>
      intro n hn hall
      obtain ⟨hx, hall⟩ := List.forall_mem_cons.mp hall
      exact ih (max n x) (Nat.max_le.mpr ⟨hn, hx⟩) hall
  refine hfold _ 0 (Nat.zero_le _) ?_
  intro x hx
  obtain ⟨v, -, rfl⟩ := List.mem_map.mp hx
  exact v.bounded

/-- The ring can be mapped. -/
theorem ring_small (s : Secrets) : stderrTailBytes + s.reach + 2 < 2 ^ 32 := by
  have hlongest := s.longest_le
  rw [maxSecretBytes] at hlongest
  rw [stderrTailBytes, Secrets.reach, Secrets.escapeGrowth]
  omega

/-- No value is longer than the room in front of what is shown. -/
theorem length_le_reach {v : SecretValue} {spelled : List Char} (hv : v ∈ s.values)
    (h : spelled = v.text ∨ Spelling v.text spelled) :
    (Utf8.encode spelled).length ≤ s.reach := by
  rcases h with rfl | h
  · have hle := Secrets.length_le_longest hv
    have hbytes : v.bytes.length = (Utf8.encode v.text).length := rfl
    rw [Secrets.reach, Secrets.escapeGrowth]
    omega
  · exact h.length_le hv

/-- A value of a text that is not cut is a secret of it. -/
theorem ValueByte.secret {text : List Char} {i : Nat} (h : ValueByte s text i) :
    SecretByte s (Utf8.encode text) false i := by
  obtain ⟨v, hv, before, spelled, after, rfl, rfl | ⟨hspelling, hat⟩, hle, hlt⟩ := h
  · exact secretByte_literal hv false hle hlt
  · exact ⟨_, .inr (.inl (hspelling.occurs hv hat)), hle, hlt⟩

/-- A value whose end lies more than the reach behind the cut is a secret of what
    follows the cut. -/
theorem ValueByte.secret_cut {pre rest : List Char} {i : Nat}
    (h : ValueByte s (pre ++ rest) ((Utf8.encode pre).length + i))
    (hroom : ∀ before after, pre ++ rest = before ++ after →
      (Utf8.encode pre).length + i < (Utf8.encode before).length + s.reach →
      (Utf8.encode pre).length ≤ (Utf8.encode before).length) :
    SecretByte s (Utf8.encode rest) true i := by
  obtain ⟨v, hv, before, spelled, after, hsplit, hspelled, hle, hlt⟩ := h
  have hreach := length_le_reach hv (hspelled.imp_right And.left)
  have hpre := hroom before (spelled ++ after) hsplit (by omega)
  obtain ⟨mid, rfl, rfl⟩ := Utf8.exists_append_of_le hsplit hpre
  rw [Utf8.encode_append, List.length_append] at hle hlt
  rcases hspelled with rfl | ⟨hspelling, hat⟩
  · exact secretByte_literal hv true (by omega) (by omega)
  · exact secretByte_spelled hv hspelling hat (by omega) (by omega)

/-- What is returned of the stderr of a server is trimmed, and withholds the values
    of the stream. -/
def TailWithholds (search : Search) (s : Secrets) (stream : List Char) (p : Process) : Prop :=
  let shownFrom := if p.stderr.cut then p.slack - p.stderr.splitLength else 0
  ∃ offset out, p.kill search s = some (trim out) ∧
    p.stderr.whole = (Utf8.encode stream).drop offset ∧
    Withholds s p.stderr.whole shownFrom p.stderr.cut
      (fun i => ValueByte s stream (offset + i)) out

/-- When the ring holds the whole stream. -/
theorem tailWithholds_whole (hsearch : Reports search) {stream : List Char}
    (hshort : (Utf8.encode stream).length ≤ stderrTailBytes + s.reach) :
    TailWithholds search s stream ⟨⟨Utf8.encode stream, false⟩, s.reach⟩ := by
  have hsmall := ring_small s
  have hsize : (Utf8.encode stream).length + 1 + false.toNat < 2 ^ 32 := by
    rw [Bool.toNat_false]
    omega
  have hsecret : ∀ i, 0 ≤ i → ValueByte s stream (0 + i) →
      SecretByte s (Utf8.encode stream) false i := by
    intro i _ hi
    rw [Nat.zero_add] at hi
    exact hi.secret
  obtain ⟨out, hredact, hwithholds⟩ := redactSpans_withholds hsearch s hsize hsecret
  have hwhole : Tail.whole ⟨Utf8.encode stream, false⟩ = Utf8.encode stream := rfl
  refine ⟨0, out, ?_, hwhole, ?_⟩
  · simp only [Process.kill, hwhole, Utf8.lossy_encode, Bool.false_eq_true, if_false,
      Secrets.redact, Secrets.redactFrom, hredact, Option.bind_some, Utf8.decode_encode,
      Option.map_some]
  · rw [hwhole]
    exact hwithholds

/-- When the start of the stream is lost. -/
theorem tailWithholds_cut (hsearch : Reports search) {stream : List Char}
    (hlong : stderrTailBytes + s.reach < (Utf8.encode stream).length) :
    TailWithholds search s stream
      ⟨⟨lastBytes (stderrTailBytes + s.reach) (Utf8.encode stream), true⟩, s.reach⟩ := by
  have hsmall := ring_small s
  have hstart : (Utf8.encode stream).length - (stderrTailBytes + s.reach) ≤
      (Utf8.encode stream).length := Nat.sub_le _ _
  obtain ⟨pre, rest, rfl, hpre, hleast⟩ := exists_whole hstart
  generalize hring : lastBytes (stderrTailBytes + s.reach) (Utf8.encode (pre ++ rest)) = ring
  have hdrop : (Utf8.encode (pre ++ rest)).drop
      ((Utf8.encode (pre ++ rest)).length - (stderrTailBytes + s.reach)) = ring := hring
  rw [hdrop] at hpre
  have hskip : Tail.splitLength ⟨ring, true⟩ =
      ((ring.take 3).takeWhile Utf8.isContinuation).length := rfl
  rw [← hskip] at hpre
  -- after the split character there is a text
  have hwhole : Tail.whole ⟨ring, true⟩ = Utf8.encode rest := by
    show ring.drop (Tail.splitLength ⟨ring, true⟩) = Utf8.encode rest
    rw [← hdrop, List.drop_drop, hdrop, ← hpre, Utf8.encode_append, List.drop_left]
  have hlength : (Utf8.encode (pre ++ rest)).length =
      (Utf8.encode pre).length + (Utf8.encode rest).length := by
    rw [Utf8.encode_append, List.length_append]
  have hsize : (Utf8.encode rest).length + 1 + true.toNat < 2 ^ 32 := by
    rw [Bool.toNat_true]
    omega
  have hsecret : ∀ i, s.reach - Tail.splitLength ⟨ring, true⟩ ≤ i →
      ValueByte s (pre ++ rest) ((Utf8.encode pre).length + i) →
      SecretByte s (Utf8.encode rest) true i := by
    intro i hi hvalue
    refine hvalue.secret_cut ?_
    -- what is shown starts a whole reach behind the start of the ring
    intro before after hsplit hlt
    exact hleast before after hsplit (by omega)
  obtain ⟨out, hredact, hwithholds⟩ := redactSpans_withholds hsearch s hsize hsecret
  refine ⟨(Utf8.encode pre).length, out, ?_, ?_, ?_⟩
  · simp only [Process.kill, hwhole, Utf8.lossy_encode, if_true, Secrets.redactCut, hredact,
      Option.bind_some, Utf8.decode_encode, Option.map_some]
  · rw [hwhole, Utf8.encode_append, List.drop_left]
  · rw [hwhole]
    exact hwithholds

/-- The stderr tail withholds every byte of a value of the whole stream, however the
    stream arrives. -/
theorem kill_withholds (hsearch : Reports search) (s : Secrets) (stream : List Char)
    (chunks : List (List UInt8)) (harrives : chunks.flatten = Utf8.encode stream) :
    TailWithholds search s stream (Process.spawn s chunks) := by
  obtain ⟨hbytes, hcut⟩ := Tail.ends_drain (stderrTailBytes + s.reach) chunks
  rw [harrives] at hbytes hcut
  have htail : Process.spawn s chunks =
      ⟨⟨lastBytes (stderrTailBytes + s.reach) (Utf8.encode stream),
        decide (stderrTailBytes + s.reach < (Utf8.encode stream).length)⟩, s.reach⟩ := by
    rw [← hbytes, ← hcut]
    rfl
  rw [htail]
  by_cases hlong : stderrTailBytes + s.reach < (Utf8.encode stream).length
  · rw [decide_eq_true hlong]
    exact tailWithholds_cut hsearch hlong
  · rw [decide_eq_false hlong, lastBytes_of_le (Nat.le_of_not_lt hlong)]
    exact tailWithholds_whole hsearch (Nat.le_of_not_lt hlong)

/-- A stream of two chunks, cut inside an escape. -/
theorem kill_withholds_password :
    TailWithholds tryAll onePassword "x\\u0061bcdef!".toList
      (Process.spawn onePassword
        [Utf8.encode "x\\u00".toList, Utf8.encode "61bcdef!".toList]) :=
  kill_withholds reports_tryAll onePassword "x\\u0061bcdef!".toList _ (by decide)

end shown

end Kyora
