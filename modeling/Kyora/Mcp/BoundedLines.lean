import Mathlib.Data.List.Infix

/-! # Bounded server lines

  The stdout of a server process fails once one line outgrows the limit. Of each
  read only the first and the last newline are looked at, and the length of the
  unfinished line is carried over to the next.
-/

namespace Kyora.Mcp

/-! ### The reader -/

/-- `defaults::MAX_MESSAGE_BYTES`. -/
def maxMessageBytes : Nat := 16 * 1024 * 1024

inductive Poll (α : Type) where
  | pending
  | ready (value : α)
  deriving DecidableEq, Repr

inductive ReadError where
  /-- What the inner reader fails with. -/
  | inner (message : String)
  | invalidData (message : String)
  deriving DecidableEq, Repr

/-- One call of `poll_read`: what its buffer holds already, and what the inner
    reader does: on success it appends bytes to the buffer. -/
structure Read where
  filled : List UInt8
  inner : Poll (Except String (List UInt8))

def position (byte : UInt8) (bytes : List UInt8) : Option Nat := bytes.findIdx? (· == byte)

def rposition (byte : UInt8) (bytes : List UInt8) : Option Nat :=
  (bytes.reverse.findIdx? (· == byte)).map (bytes.length - 1 - ·)

/-- Server stdout that fails once one line outgrows the limit. -/
structure BoundedLines where
  line : Nat
  exceeded : Bool
  deriving DecidableEq, Repr

namespace BoundedLines

def new : BoundedLines := ⟨0, false⟩

/-- The reader, the buffer and the result after one read. -/
def pollRead (this : BoundedLines) (read : Read) :
    BoundedLines × List UInt8 × Poll (Except ReadError Unit) :=
  match read.inner with
  | .pending => (this, read.filled, .pending)
  | .ready (.error message) => (this, read.filled, .ready (.error (.inner message)))
  | .ready (.ok bytes) =>
    let buf := read.filled ++ bytes
    let fresh := buf.drop read.filled.length
    let (longest, line) :=
      match position 10 fresh, rposition 10 fresh with
      | some first, some last =>
        let longest := this.line + first
        let line := fresh.length - last - 1
        (max longest line, line)
      | _, _ => (this.line + fresh.length, this.line + fresh.length)
    if longest > maxMessageBytes then
      ({ line, exceeded := true }, buf,
        .ready (.error (.invalidData "message exceeds the size limit")))
    else ({ this with line }, buf, .ready (.ok ()))

/-- The results of one read after the other. -/
def polls (this : BoundedLines) : List Read → List (Poll (Except ReadError Unit))
  | [] => []
  | read :: reads => (this.pollRead read).2.2 :: polls (this.pollRead read).1 reads

end BoundedLines

def limitError : Poll (Except ReadError Unit) :=
  .ready (.error (.invalidData "message exceeds the size limit"))

/-- The first read that fails because of the limit. -/
def firstExceeded (reads : List Read) : Option Nat :=
  (BoundedLines.new.polls reads).findIdx? (· = limitError)

/-! ### The stream -/

/-- The bytes that a read adds to the stream. -/
def Read.fresh (read : Read) : List UInt8 :=
  match read.inner with
  | .ready (.ok bytes) => bytes
  | _ => []

def received (reads : List Read) : List UInt8 := (reads.map Read.fresh).flatten

/-- Some line, complete or not, is longer than the limit. -/
def tooLong (stream : List UInt8) : Bool :=
  (stream.splitOn 10).any fun line => maxMessageBytes < line.length

/-- The bytes after the last newline. -/
def unfinishedLine (stream : List UInt8) : List UInt8 := (stream.splitOn 10).getLastD []

/-! ### Lines -/

/-- The complete lines of a stream and the unfinished one: whatever follows is
    appended to the latter. -/
structure Ends (stream : List UInt8) (lines : List (List UInt8)) (part : List UInt8) : Prop where
  inLine : 10 ∉ part
  append : ∀ more, (stream ++ more).splitOn 10 = lines ++ (part ++ more).splitOn 10

theorem ends_nil : Ends [] [] [] := ⟨List.not_mem_nil, fun _ => rfl⟩

theorem ends_newline (stream : List UInt8) {part : List UInt8} (h : 10 ∉ part) :
    Ends (stream ++ 10 :: part) (stream.splitOn 10) part where
  inLine := h
  append more := by
    rw [List.append_assoc, List.cons_append, List.splitOn_append_cons_self]

/-- The first byte that matches, and what comes before it. -/
theorem position_append {byte : UInt8} {before : List UInt8} (h : byte ∉ before)
    (after : List UInt8) : position byte (before ++ byte :: after) = some before.length := by
  have hnone : before.findIdx? (· == byte) = none :=
    List.findIdx?_eq_none_iff.mpr fun _ hb => beq_eq_false_iff_ne.mpr fun heq => h (heq ▸ hb)
  rw [position, List.findIdx?_append, hnone, List.findIdx?_cons, beq_self_eq_true]
  simp

theorem rposition_append (before : List UInt8) {byte : UInt8} {after : List UInt8}
    (h : byte ∉ after) : rposition byte (before ++ byte :: after) = some before.length := by
  have hreverse : (before ++ byte :: after).reverse = after.reverse ++ byte :: before.reverse := by
    simp
  have hfirst := position_append (fun hmem => h (List.mem_reverse.mp hmem)) before.reverse
  rw [position] at hfirst
  rw [rposition, hreverse, hfirst, Option.map_some, List.length_reverse, List.length_append,
    List.length_cons]
  congr 1
  omega

theorem position_none {byte : UInt8} {bytes : List UInt8} (h : byte ∉ bytes) :
    position byte bytes = none :=
  List.findIdx?_eq_none_iff.mpr fun _ hb => beq_eq_false_iff_ne.mpr fun heq => h (heq ▸ hb)

/-- Where the last occurrence splits the bytes. -/
theorem eq_append_cons_of_mem_last {byte : UInt8} {bytes : List UInt8} (h : byte ∈ bytes) :
    ∃ before after, bytes = before ++ byte :: after ∧ byte ∉ after := by
  obtain ⟨as, bs, heq, has⟩ := List.eq_append_cons_of_mem (List.mem_reverse.mpr h)
  refine ⟨bs.reverse, as.reverse, ?_, fun hmem => has (List.mem_reverse.mp hmem)⟩
  rw [← List.reverse_reverse bytes, heq]
  simp

namespace Ends

variable {stream : List UInt8} {lines : List (List UInt8)} {part : List UInt8}

theorem bytes (h : Ends stream lines part) {fresh : List UInt8} (hfresh : 10 ∉ fresh) :
    Ends (stream ++ fresh) lines (part ++ fresh) where
  inLine := fun hmem => (List.mem_append.mp hmem).elim h.inLine hfresh
  append more := by rw [List.append_assoc, h.append, List.append_assoc]

theorem splitOn_eq (h : Ends stream lines part) : stream.splitOn 10 = lines ++ [part] := by
  have happend := h.append []
  rwa [List.append_nil, List.append_nil, List.splitOn_eq_singleton h.inLine] at happend

theorem unfinishedLine_eq (h : Ends stream lines part) : unfinishedLine stream = part := by
  rw [unfinishedLine, h.splitOn_eq, List.getLastD_concat]

end Ends

theorem exists_ends (stream : List UInt8) : ∃ lines part, Ends stream lines part := by
  by_cases hmem : 10 ∈ stream
  · obtain ⟨before, after, rfl, hafter⟩ := eq_append_cons_of_mem_last hmem
    exact ⟨before.splitOn 10, after, ends_newline before hafter⟩
  · exact ⟨[], stream, ends_nil.bytes hmem⟩

theorem unfinishedLine_mem (stream : List UInt8) : unfinishedLine stream ∈ stream.splitOn 10 := by
  obtain ⟨lines, part, hends⟩ := exists_ends stream
  rw [hends.unfinishedLine_eq, hends.splitOn_eq]
  exact List.mem_append_right _ (List.mem_singleton_self _)

theorem tooLong_iff {stream : List UInt8} :
    tooLong stream = true ↔ ∃ line ∈ stream.splitOn 10, maxMessageBytes < line.length := by
  rw [tooLong, List.any_eq_true]
  simp only [decide_eq_true_eq]

/-- A line stays too long, and an unfinished one only grows. -/
theorem tooLong_append {stream : List UInt8} (h : tooLong stream = true) (more : List UInt8) :
    tooLong (stream ++ more) = true := by
  obtain ⟨lines, part, hends⟩ := exists_ends stream
  obtain ⟨line, hline, hlong⟩ := tooLong_iff.mp h
  rw [hends.splitOn_eq] at hline
  rw [tooLong_iff, hends.append]
  rcases List.mem_append.mp hline with hline | hline
  · exact ⟨line, List.mem_append_left _ hline, hlong⟩
  · rw [List.mem_singleton.mp hline] at hlong
    by_cases hmem : 10 ∈ more
    · obtain ⟨before, after, rfl, hbefore⟩ := List.eq_append_cons_of_mem hmem
      refine ⟨part ++ before, List.mem_append_right _ ?_, ?_⟩
      · rw [← List.append_assoc, List.splitOn_append_cons_self]
        apply List.mem_append_left
        rw [List.splitOn_eq_singleton fun h => (List.mem_append.mp h).elim hends.inLine hbefore]
        exact List.mem_singleton_self _
      · rw [List.length_append]
        omega
    · refine ⟨part ++ more, List.mem_append_right _ ?_, ?_⟩
      · rw [List.splitOn_eq_singleton fun h => (List.mem_append.mp h).elim hends.inLine hmem]
        exact List.mem_singleton_self _
      · rw [List.length_append]
        omega

/-- No line is longer than the bytes it comes from. -/
theorem length_le_of_mem_splitOn {line bytes : List UInt8} (h : line ∈ bytes.splitOn 10) :
    line.length ≤ bytes.length := by
  induction bytes generalizing line with
  | nil =>
    rw [List.splitOn_nil, List.mem_singleton] at h
    rw [h]
  | cons byte bytes ih =>
    rw [List.splitOn_cons_eq_if_modifyHead] at h
    obtain ⟨first, rest, heq⟩ := List.exists_cons_of_ne_nil (List.splitOn_ne_nil 10 bytes)
    rw [heq] at h ih
    rw [List.length_cons]
    split at h
    · rcases List.mem_cons.mp h with rfl | h
      · exact Nat.zero_le _
      · exact Nat.le_succ_of_le (ih h)
    · rw [List.modifyHead_cons] at h
      rcases List.mem_cons.mp h with rfl | h
      · exact Nat.succ_le_succ (ih List.mem_cons_self)
      · exact Nat.le_succ_of_le (ih (List.mem_cons_of_mem _ h))

/-! ### One read -/

/-- The reader after a stream without a line above the limit. -/
structure BoundedLines.Sound (this : BoundedLines) (stream : List UInt8) : Prop where
  line : this.line = (unfinishedLine stream).length
  within : tooLong stream = false

theorem sound_new : BoundedLines.new.Sound [] := ⟨rfl, rfl⟩

/-- What the code finds in the bytes of one read. -/
structure Longest (this : BoundedLines) (stream fresh : List UInt8) (longest line : Nat) :
    Prop where
  line : line = (unfinishedLine (stream ++ fresh)).length
  exceeds : tooLong (stream ++ fresh) = true ↔ longest > maxMessageBytes

theorem not_long {stream line : List UInt8} (h : tooLong stream = false)
    (hline : line ∈ stream.splitOn 10) : ¬maxMessageBytes < line.length := by
  intro hlong
  rw [tooLong_iff.mpr ⟨line, hline, hlong⟩] at h
  exact Bool.noConfusion h

/-- Without a newline the read only makes the unfinished line longer. -/
theorem longest_inLine {this : BoundedLines} {stream fresh : List UInt8} (h : this.Sound stream)
    (hfresh : 10 ∉ fresh) :
    Longest this stream fresh (this.line + fresh.length) (this.line + fresh.length) := by
  obtain ⟨lines, part, hends⟩ := exists_ends stream
  have hafter := hends.bytes hfresh
  have hlen : this.line + fresh.length = (part ++ fresh).length := by
    rw [h.line, hends.unfinishedLine_eq, List.length_append]
  constructor
  · rw [hafter.unfinishedLine_eq, hlen]
  · rw [tooLong_iff, hafter.splitOn_eq, hlen]
    constructor
    · rintro ⟨line, hline, hlong⟩
      rcases List.mem_append.mp hline with hline | hline
      · refine absurd hlong (not_long h.within ?_)
        rw [hends.splitOn_eq]
        exact List.mem_append_left _ hline
      · rw [List.mem_singleton.mp hline] at hlong
        exact hlong
    · intro hlong
      exact ⟨part ++ fresh, List.mem_append_right _ (List.mem_singleton_self _), hlong⟩

/-- With newlines the first ends the unfinished line, and the last begins the
    next. The lines between are part of one read, so none is above the limit. -/
theorem longest_newline {this : BoundedLines} {stream fresh before rest front after : List UInt8}
    (h : this.Sound stream) (hfirst : fresh = before ++ 10 :: rest) (hbefore : 10 ∉ before)
    (hlast : fresh = front ++ 10 :: after) (hafter : 10 ∉ after)
    (hread : fresh.length ≤ maxMessageBytes) :
    Longest this stream fresh (max (this.line + before.length) after.length) after.length := by
  obtain ⟨lines, part, hends⟩ := exists_ends stream
  have hnext : Ends (stream ++ fresh) ((stream ++ front).splitOn 10) after := by
    rw [hlast, ← List.append_assoc]
    exact ends_newline (stream ++ front) hafter
  have hsplit : (stream ++ fresh).splitOn 10 = lines ++ (part ++ before) :: rest.splitOn 10 := by
    have hpart : 10 ∉ part ++ before := fun hmem =>
      (List.mem_append.mp hmem).elim hends.inLine hbefore
    rw [hends.append, hfirst, ← List.append_assoc, List.splitOn_append_cons_self,
      List.splitOn_eq_singleton hpart]
    rfl
  have hlen : this.line + before.length = (part ++ before).length := by
    rw [h.line, hends.unfinishedLine_eq, List.length_append]
  have hlengths : fresh.length = before.length + (rest.length + 1) := by
    rw [hfirst, List.length_append, List.length_cons]
  constructor
  · rw [hnext.unfinishedLine_eq]
  · rw [tooLong_iff]
    constructor
    · rintro ⟨line, hline, hlong⟩
      rw [hsplit] at hline
      rcases List.mem_append.mp hline with hline | hline
      · refine absurd hlong (not_long h.within ?_)
        rw [hends.splitOn_eq]
        exact List.mem_append_left _ hline
      rcases List.mem_cons.mp hline with rfl | hline
      · rw [hlen]
        exact lt_of_lt_of_le hlong (Nat.le_max_left _ _)
      · have hle := length_le_of_mem_splitOn hline
        omega
    · intro hlong
      have hcases : maxMessageBytes < this.line + before.length ∨
          maxMessageBytes < after.length := by omega
      rcases hcases with hlong | hlong
      · refine ⟨part ++ before, ?_, hlen ▸ hlong⟩
        rw [hsplit]
        exact List.mem_append_right _ List.mem_cons_self
      · refine ⟨after, ?_, hlong⟩
        rw [hnext.splitOn_eq]
        exact List.mem_append_right _ (List.mem_singleton_self _)

/-- A read fails because of the limit exactly if the stream has a line above it
    then. -/
theorem sound_pollRead {this : BoundedLines} {stream : List UInt8} (h : this.Sound stream)
    {read : Read} (hread : read.fresh.length ≤ maxMessageBytes) :
    ((this.pollRead read).2.2 = limitError ↔ tooLong (stream ++ read.fresh) = true) ∧
      (tooLong (stream ++ read.fresh) = false →
        (this.pollRead read).1.Sound (stream ++ read.fresh)) := by
  obtain ⟨filled, inner⟩ := read
  -- Nothing read leaves the stream and the reader as they are.
  have hsame : tooLong (stream ++ []) = false ∧ this.Sound (stream ++ []) := by
    rw [List.append_nil]
    exact ⟨h.within, h⟩
  match inner with
  | .pending =>
    refine ⟨⟨fun heq => ?_, fun hlong => ?_⟩, fun _ => hsame.2⟩
    · exact Poll.noConfusion rfl (heq_of_eq heq)
    · exact absurd (hsame.1.symm.trans hlong) Bool.false_ne_true
  | .ready (.error message) =>
    refine ⟨⟨fun heq => ?_, fun hlong => ?_⟩, fun _ => hsame.2⟩
    · simp [BoundedLines.pollRead, limitError] at heq
    · exact absurd (hsame.1.symm.trans hlong) Bool.false_ne_true
  | .ready (.ok bytes) =>
    have hdrop : (filled ++ bytes).drop filled.length = bytes := List.drop_left
    -- What the two searches find is what the stream has.
    have hfound {longest line : Nat} (hlongest : Longest this stream bytes longest line)
        (hpoll : this.pollRead ⟨filled, .ready (.ok bytes)⟩ =
          if longest > maxMessageBytes then
            ({ line, exceeded := true }, filled ++ bytes, limitError)
          else ({ this with line }, filled ++ bytes, .ready (.ok ()))) :
        ((this.pollRead ⟨filled, .ready (.ok bytes)⟩).2.2 = limitError ↔
            tooLong (stream ++ bytes) = true) ∧
          (tooLong (stream ++ bytes) = false →
            (this.pollRead ⟨filled, .ready (.ok bytes)⟩).1.Sound (stream ++ bytes)) := by
      rw [hpoll, hlongest.exceeds]
      by_cases hlong : longest > maxMessageBytes
      · rw [if_pos hlong]
        refine ⟨⟨fun _ => hlong, fun _ => rfl⟩, fun hwithin => ?_⟩
        rw [hlongest.exceeds.mpr hlong] at hwithin
        exact absurd hwithin (Ne.symm Bool.false_ne_true)
      · rw [if_neg hlong]
        refine ⟨⟨fun heq => ?_, fun h => absurd h hlong⟩, fun hwithin => ?_⟩
        · simp [limitError] at heq
        · exact ⟨hlongest.line, hwithin⟩
    by_cases hmem : 10 ∈ bytes
    · obtain ⟨before, rest, hfirst, hbefore⟩ := List.eq_append_cons_of_mem hmem
      obtain ⟨front, after, hlast, hafter⟩ := eq_append_cons_of_mem_last hmem
      apply hfound (longest_newline h hfirst hbefore hlast hafter hread)
      have hposition : position 10 bytes = some before.length := by
        rw [hfirst]
        exact position_append hbefore rest
      have hrposition : rposition 10 bytes = some front.length := by
        rw [hlast]
        exact rposition_append front hafter
      have hline : bytes.length - front.length - 1 = after.length := by
        rw [hlast, List.length_append, List.length_cons]
        omega
      simp only [BoundedLines.pollRead, hdrop, hposition, hrposition, hline]
      rfl
    · apply hfound (longest_inLine h hmem)
      simp only [BoundedLines.pollRead, hdrop, position_none hmem]
      rfl

/-! ### Every sequence of reads -/

/-- The first read after which some line is too long, from a stream on. -/
def firstLong (stream : List UInt8) : List Read → Option Nat
  | [] => none
  | read :: reads =>
    if tooLong (stream ++ read.fresh) then some 0
    else (firstLong (stream ++ read.fresh) reads).map (· + 1)

theorem find_firstLong (stream : List UInt8) (reads : List Read) :
    (List.range reads.length).find? (fun i =>
      tooLong (stream ++ received (reads.take (i + 1)))) = firstLong stream reads := by
  induction reads generalizing stream with
  | nil => rfl
  | cons read reads ih =>
    have hreceived (i : Nat) : stream ++ received ((read :: reads).take (i + 1)) =
        stream ++ read.fresh ++ received (reads.take i) := by
      rw [List.take_succ_cons, received, List.map_cons, List.flatten_cons, List.append_assoc]
      rfl
    rw [List.length_cons, List.range_succ_eq_map, List.find?_cons, hreceived, List.take_zero,
      received, List.map_nil, List.flatten_nil, List.append_nil, firstLong]
    by_cases hlong : tooLong (stream ++ read.fresh) = true
    · rw [hlong, if_pos rfl]
    · rw [Bool.not_eq_true] at hlong
      rw [hlong, if_neg Bool.false_ne_true, List.find?_map, ← ih]
      simp only [Function.comp_def, Nat.succ_eq_add_one, hreceived]

/-- The reads fail as soon as the stream has a line above the limit. -/
theorem polls_eq {this : BoundedLines} {stream : List UInt8} (h : this.Sound stream)
    {reads : List Read} (hreads : ∀ read ∈ reads, read.fresh.length ≤ maxMessageBytes) :
    (this.polls reads).findIdx? (· = limitError) = firstLong stream reads := by
  induction reads generalizing this stream with
  | nil => rfl
  | cons read reads ih =>
    obtain ⟨hfails, hsound⟩ := sound_pollRead h (hreads read List.mem_cons_self)
    rw [BoundedLines.polls, List.findIdx?_cons, firstLong]
    by_cases hlong : tooLong (stream ++ read.fresh) = true
    · rw [if_pos hlong, if_pos (decide_eq_true (hfails.mpr hlong))]
    · have hnext := hsound (Bool.eq_false_iff.mpr hlong)
      rw [if_neg hlong, if_neg (fun hpoll => hlong (hfails.mp (of_decide_eq_true hpoll))),
        ih hnext fun read hread => hreads read (List.mem_cons_of_mem _ hread)]

/-- Until the first read that fails no line is too long. -/
theorem within_of_firstLong {stream : List UInt8} {reads : List Read} {i : Nat}
    (hstream : tooLong stream = false) (h : ∀ n, firstLong stream reads = some n → i ≤ n) :
    tooLong (stream ++ received (reads.take i)) = false := by
  induction reads generalizing stream i with
  | nil =>
    rw [List.take_nil, received, List.map_nil, List.flatten_nil, List.append_nil]
    exact hstream
  | cons read reads ih =>
    cases i with
    | zero =>
      rw [List.take_zero, received, List.map_nil, List.flatten_nil, List.append_nil]
      exact hstream
    | succ i =>
      rw [firstLong] at h
      by_cases hlong : tooLong (stream ++ read.fresh) = true
      · rw [if_pos hlong] at h
        exact absurd (h 0 rfl) (Nat.not_succ_le_zero i)
      · rw [if_neg hlong] at h
        rw [List.take_succ_cons, received, List.map_cons, List.flatten_cons, ← List.append_assoc]
        apply ih (Bool.eq_false_iff.mpr hlong)
        intro n hn
        exact Nat.le_of_succ_le_succ (h (n + 1) (by rw [hn, Option.map_some]))

/-- Reads fail at the first after which some line of the stream so far, complete
    or not, is above the limit. Until then a reader that accumulates one line
    holds at most the limit and one read, and without such a line no read
    fails. -/
theorem lines_bounded (reads : List Read)
    (hreads : ∀ read ∈ reads, read.fresh.length ≤ maxMessageBytes) :
    firstExceeded reads =
        (List.range reads.length).find? (fun i => tooLong (received (reads.take (i + 1)))) ∧
      (∀ i read, reads[i]? = some read → (∀ n, firstExceeded reads = some n → i ≤ n) →
        (unfinishedLine (received (reads.take i)) ++ read.fresh).length ≤
          maxMessageBytes + read.fresh.length) ∧
      ((∀ line ∈ (received reads).splitOn 10, line.length ≤ maxMessageBytes) →
        firstExceeded reads = none) := by
  have hfirst : firstExceeded reads = firstLong [] reads := polls_eq sound_new hreads
  have hfind := find_firstLong [] reads
  simp only [List.nil_append] at hfind
  refine ⟨hfirst.trans hfind.symm, ?_, ?_⟩
  · intro i read hread hbefore
    rw [hfirst] at hbefore
    have hwithin : tooLong (received (reads.take i)) = false :=
      within_of_firstLong sound_new.within hbefore
    have hle := not_long hwithin (unfinishedLine_mem _)
    rw [List.length_append]
    omega
  · intro hlines
    rw [hfirst, ← hfind, List.find?_eq_none]
    intro i hi hlong
    have hwhole := tooLong_append hlong (received (reads.drop (i + 1)))
    rw [received, received, ← List.flatten_append, ← List.map_append,
      List.take_append_drop] at hwhole
    obtain ⟨line, hline, hover⟩ := tooLong_iff.mp hwhole
    exact absurd hover (Nat.not_lt.mpr (hlines line hline))

theorem tooLong_inLine {bytes : List UInt8} (h : 10 ∉ bytes) :
    tooLong bytes = decide (maxMessageBytes < bytes.length) := by
  rw [tooLong, List.splitOn_eq_singleton h, List.any_cons, List.any_nil, Bool.or_false]

/-- A line of the limit passes, one byte more does not. -/
theorem lines_bounded_limit :
    firstExceeded [⟨[7], .ready (.ok (List.replicate maxMessageBytes 97))⟩,
      ⟨[], .pending⟩, ⟨[7], .ready (.ok [97])⟩] = some 2 := by
  -- The line must not be computed.
  obtain ⟨n, hn⟩ : ∃ n, n = maxMessageBytes := ⟨_, rfl⟩
  rw [← hn]
  have hread : ∀ read ∈ ([⟨[7], .ready (.ok (List.replicate n 97))⟩,
      ⟨[], .pending⟩, ⟨[7], .ready (.ok [97])⟩] : List Read),
      read.fresh.length ≤ maxMessageBytes := by
    rw [List.forall_mem_cons, List.forall_mem_cons, List.forall_mem_singleton]
    refine ⟨?_, Nat.zero_le _, by decide⟩
    rw [← hn]
    exact Nat.le_of_eq List.length_replicate
  have hline {k : Nat} : (10 : UInt8) ∉ List.replicate k 97 := fun hmem =>
    absurd (List.eq_of_mem_replicate hmem) (by decide)
  have hwithin : tooLong (List.replicate n 97) = false := by
    rw [tooLong_inLine hline, List.length_replicate, hn]
    exact decide_eq_false (Nat.lt_irrefl _)
  have hlong : tooLong (List.replicate n 97 ++ [97]) = true := by
    rw [← List.replicate_succ', tooLong_inLine hline, List.length_replicate, hn]
    exact decide_eq_true (Nat.lt_succ_self _)
  rw [(lines_bounded _ hread).1]
  show [0, 1, 2].find? _ = some 2
  simp only [List.find?_cons, received, List.take_succ_cons, List.take_zero, List.map_cons,
    List.map_nil, Read.fresh, List.flatten_cons, List.flatten_nil, List.append_nil,
    List.nil_append, hwithin, hlong]

end Kyora.Mcp
