import Kyora.Files.Edit
import Kyora.Framework.Machine
import Kyora.Framework.Validity
import Kyora.Text

/-! # Reading a file by pages

  `read_file` reads a bounded number of bytes and numbers the lines of a page of
  them. A read that was cut off may end inside a character, which is left out.
  One byte more than the bound is read to see whether something was cut off, so
  the bound may not be the largest number of 64 bits.
-/

namespace Kyora.Files

open Machine (Mode)
open Utf8 (encode fromUtf8)

/-! ### The operation -/

/-- The bounds of a read. -/
structure FileConfig where
  /-- Default number of lines returned. -/
  lines : UInt64
  /-- Maximum bytes examined, including skipped lines. -/
  maxBytes : UInt64
  /-- Maximum characters retained per line. -/
  lineChars : UInt64

/-- `value.as_u64()`. -/
def asU64 : Json → Option Nat
  | .integer (.ofNat n) => if n < 2 ^ 64 then some n else none
  | _ => none

/-- A number of the input, if it is not left to its default. -/
def numberOr (input : Json) (key : String) (default : Nat) : Option Nat :=
  match input.get? key with
  | none => some default
  | some value => asU64 value

/-- `text.split_inclusive('\n')`. -/
def splitInclusive : List Char → List (List Char)
  | [] => []
  | c :: text =>
    if c = '\n' then [c] :: splitInclusive text
    else
      match splitInclusive text with
      | [] => [[c]]
      | line :: lines => (c :: line) :: lines

/-- A line without its line break. A carriage return belongs to a line feed. -/
def stripBreak (line : List Char) : List Char :=
  match line.reverse with
  | '\n' :: '\r' :: rest => rest.reverse
  | '\n' :: rest => rest.reverse
  | _ => line

/-- `text.lines()`. -/
def lines (text : List Char) : List (List Char) := (splitInclusive text).map stripBreak

/-- One line as it is shown, with its number. -/
def numberedLine (lineChars : Nat) (line : List Char × Nat) : List Char :=
  (toString (line.2 + 1)).toList ++ ": ".toList ++
    (truncate (String.ofList line.1) lineChars).toList ++ "\n".toList

/-- The lines of a page. -/
def page (lineChars offset limit : Nat) (text : List Char) : List Char :=
  (((lines text).zipIdx.drop (offset - 1)).take limit).flatMap (numberedLine lineChars)

/-- What stands at the end when something was cut off. -/
def note (clipped : Bool) : List Char :=
  if clipped then "[read byte limit reached]\n".toList else []

/-- The text in the bytes that were read. A bounded read may end inside UTF-8; only
    that incomplete suffix is removed. -/
def readable (clipped : Bool) (bytes : List UInt8) : Except String (List Char) :=
  if 0 ∈ bytes then .error "binary file refused"
  else
    match fromUtf8 bytes with
    | .ok text => .ok text
    | .error e =>
      if clipped ∧ e.errorLen = none then
        match fromUtf8 (bytes.take e.validUpTo) with
        | .ok text => .ok text
        | .error e => .error e.text
      else .error "binary or non-UTF-8 file refused"

/-- `ReadFile::read` of a file, as the path of the input was opened. `none` is a
    panic. -/
def read (m : Mode) (c : FileConfig) (opened : Except String (List UInt8)) (input : Json) :
    Option (Except String (List Char)) :=
  match numberOr input "offset" 1 with
  | none => some (.error "offset must be positive")
  | some offset =>
    match numberOr input "limit" c.lines.toNat with
    | none => some (.error "limit must be positive")
    | some limit =>
      if offset = 0 ∨ limit = 0 ∨ c.maxBytes = 0 ∨ c.lineChars = 0 then
        some (.error "file bounds must be positive")
      else
        match opened with
        | .error e => some (.error e)
        | .ok content =>
          (m.add 64 c.maxBytes.toNat 1).map fun bound =>
            let bytes := content.take bound
            let clipped := decide (c.maxBytes.toNat < bytes.length)
            (readable clipped (bytes.take c.maxBytes.toNat)).map fun text =>
              page c.lineChars.toNat offset limit text ++ note clipped

/-! ### What is to be shown -/

/-- The text that is shown of a content: all of it if it is within the bound, else
    its longest front that is. -/
structure Shown (maxBytes : Nat) (chars text : List Char) : Prop where
  whole : (encode chars).length ≤ maxBytes → text = chars
  front : text <+: chars
  fits : (encode text).length ≤ maxBytes
  longest : ∀ other, other <+: chars → (encode other).length ≤ maxBytes → other <+: text

/-- The lines of a text, numbered from 1. -/
def numbered (lineChars : Nat) (text : List Char) : List (List Char) :=
  (lines text).zipIdx.map (numberedLine lineChars)

/-- An input asks for a page. -/
structure Asks (c : FileConfig) (input : Json) (offset limit : Nat) : Prop where
  first : numberOr input "offset" 1 = some offset
  count : numberOr input "limit" c.lines.toNat = some limit
  offsetPos : 0 < offset
  limitPos : 0 < limit

/-- Pages each of which starts where the previous one ended. -/
inductive Tiles (c : FileConfig) : Nat → List Json → Nat → Prop where
  | nil (start : Nat) : Tiles c start [] start
  | cons {start limit stop : Nat} {input : Json} {inputs : List Json}
    (first : Asks c input start limit) (rest : Tiles c (start + limit) inputs stop) :
    Tiles c start (input :: inputs) stop

/-- A content that is no text as far as it is read. -/
def Refusable (maxBytes : Nat) (content : List UInt8) : Prop :=
  0 ∈ content.take maxBytes ∨ ¬Utf8.IsFront (content.take maxBytes) ∨
    content.length ≤ maxBytes ∧ ∀ chars, content ≠ encode chars

/-- Reading by pages: a text is shown, and its pages put together are its lines;
    what is no text is refused. -/
structure Paged (m : Mode) (c : FileConfig) (content : List UInt8) : Prop where
  shows : ∀ chars, content = encode chars → 0 ∉ content →
    ∃ text, Shown c.maxBytes.toNat chars text ∧
      (∀ input offset limit, Asks c input offset limit →
        read m c (.ok content) input = some (.ok (
          (((numbered c.lineChars.toNat text).drop (offset - 1)).take limit).flatten ++
            note (c.maxBytes.toNat < content.length)))) ∧
      ∀ inputs stop, Tiles c 1 inputs stop → ∃ pages : List (List Char),
        List.Forall₂ (fun input page => read m c (.ok content) input =
          some (.ok (page ++ note (c.maxBytes.toNat < content.length)))) inputs pages ∧
        pages.flatten = ((numbered c.lineChars.toNat text).take (stop - 1)).flatten
  refuses : Refusable c.maxBytes.toNat content → ∀ input offset limit,
    Asks c input offset limit → ∃ e, read m c (.ok content) input = some (.error e)

/-! ### The text that is read -/

section readable

variable {maxBytes : Nat} {content : List UInt8} {chars : List Char}

theorem Shown.of_whole (h : (encode chars).length ≤ maxBytes) : Shown maxBytes chars chars where
  whole := fun _ => rfl
  front := List.prefix_refl chars
  fits := h
  longest := fun _ hfront _ => hfront

/-- The front before a cut is the longest one. -/
theorem Shown.of_cut {before : List Char} {c : Char} {after : List Char} {k : Nat}
    (hk : k < c.utf8Size) (hmax : maxBytes = (encode before).length + k) :
    Shown maxBytes (before ++ c :: after) before where
  whole := by
    intro hle
    rw [Utf8.encode_append, Utf8.encode_cons, List.length_append, List.length_append,
      String.length_utf8EncodeChar] at hle
    omega
  front := List.prefix_append _ _
  fits := by omega
  longest := by
    intro other hother hfits
    rcases List.prefix_or_prefix_of_prefix hother (List.prefix_append before (c :: after)) with
      hle | hge
    · exact hle
    · -- a longer front has the next character
      obtain ⟨more, rfl⟩ := hge
      cases more with
      | nil => exact ⟨[], by simp⟩
      | cons c' more =>
        have hsame := (List.prefix_append_right_inj before).mp hother
        obtain ⟨rfl, -⟩ := List.cons_prefix_cons.mp hsame
        rw [Utf8.encode_append, Utf8.encode_cons, List.length_append, List.length_append,
          String.length_utf8EncodeChar] at hfits
        omega

/-- A text is read as far as it is shown. -/
theorem readable_text (hchars : content = encode chars) (hnul : 0 ∉ content) :
    ∃ text, readable (maxBytes < content.length) (content.take maxBytes) = .ok text ∧
      Shown maxBytes chars text := by
  have hfree : 0 ∉ content.take maxBytes := fun hmem => hnul (List.mem_of_mem_take hmem)
  unfold readable
  rw [if_neg hfree]
  rcases Nat.lt_or_ge maxBytes content.length with hclipped | hwhole
  · rw [hchars] at hclipped ⊢
    rcases Utf8.exists_cut (Nat.le_of_lt hclipped) with
      ⟨before, after, rfl, hlength⟩ | ⟨before, c, after, k, rfl, hpos, hk, hlength⟩
    · have htake : (encode (before ++ after)).take maxBytes = encode before := by
        rw [← hlength, Utf8.encode_append, List.take_left]
      rw [htake, Utf8.fromUtf8_encode]
      refine ⟨before, rfl, ?_⟩
      cases after with
      | nil =>
        rw [List.append_nil] at hclipped
        omega
      | cons c after => exact Shown.of_cut (k := 0) c.utf8Size_pos (by omega)
    · obtain ⟨htake, -⟩ := Utf8.cut_inside before after c (Nat.le_of_lt hk)
      rw [hlength, htake, Utf8.fromUtf8_cut before ⟨c, k, hpos, hk, rfl⟩, ← hlength]
      simp only [hclipped, decide_true, and_self, if_true, List.take_left, Utf8.fromUtf8_encode]
      exact ⟨before, rfl, Shown.of_cut hk hlength⟩
  · have hfits : (encode chars).length ≤ maxBytes := by rwa [hchars] at hwhole
    rw [List.take_of_length_le hwhole, hchars, Utf8.fromUtf8_encode]
    exact ⟨chars, rfl, Shown.of_whole hfits⟩

/-- What is no text is refused. -/
theorem readable_refused (h : Refusable maxBytes content) :
    ∃ e, readable (maxBytes < content.length) (content.take maxBytes) = .error e := by
  unfold readable
  by_cases hnul : 0 ∈ content.take maxBytes
  · exact ⟨_, if_pos hnul⟩
  rw [if_neg hnul]
  have h := h.resolve_left hnul
  rcases Utf8.fromUtf8_cases (content.take maxBytes) with
    ⟨text, htext, hresult⟩ | ⟨text, rest, htext, hcut, hresult⟩ | ⟨-, at_, n, hresult⟩
  · -- the bytes are a text, so nothing can be wrong with them
    rcases h with hfront | ⟨hwhole, hinvalid⟩
    · exact absurd ⟨text, htext ▸ List.prefix_refl _⟩ hfront
    · rw [List.take_of_length_le hwhole] at htext
      exact absurd htext (hinvalid text)
  · rcases h with hfront | ⟨hwhole, -⟩
    · exact absurd (htext ▸ hcut.isFront text) hfront
    · rw [hresult]
      simp only [show ¬maxBytes < content.length by omega, decide_false, Bool.false_eq_true,
        false_and, if_false]
      exact ⟨_, rfl⟩
  · rw [hresult]
    simp only [reduceCtorEq, and_false, if_false]
    exact ⟨_, rfl⟩

end readable

/-! ### Pages -/

theorem page_eq (lineChars offset limit : Nat) (text : List Char) :
    page lineChars offset limit text =
      (((numbered lineChars text).drop (offset - 1)).take limit).flatten := by
  rw [page, numbered, ← List.map_drop, ← List.map_take, List.flatMap_def]

theorem Tiles.le {c : FileConfig} {start stop : Nat} {inputs : List Json}
    (h : Tiles c start inputs stop) : start ≤ stop := by
  induction h with
  | nil start => exact Nat.le_refl start
  | cons first rest ih => omega

/-- Each line from the first page on is on one page. -/
theorem Tiles.flatten {c : FileConfig} {start stop : Nat} {inputs : List Json}
    (h : Tiles c start inputs stop) (shown : List (List Char)) {P : Json → List Char → Prop}
    (hpage : ∀ input offset limit, Asks c input offset limit →
      P input ((shown.drop (offset - 1)).take limit).flatten) :
    ∃ pages, List.Forall₂ P inputs pages ∧
      pages.flatten = ((shown.take (stop - 1)).drop (start - 1)).flatten := by
  induction h with
  | nil start =>
    refine ⟨[], List.Forall₂.nil, ?_⟩
    rw [List.drop_eq_nil_of_le (List.length_take_le _ _)]
  | @cons start limit stop input inputs first rest ih =>
    obtain ⟨pages, hpages, hflatten⟩ := ih
    have hle := rest.le
    have hpos := first.offsetPos
    refine ⟨_ :: pages, hpages.cons (hpage input start limit first), ?_⟩
    -- the lines of this page, then those of the later ones
    have hsplit : (shown.take (stop - 1)).drop (start - 1) =
        (shown.drop (start - 1)).take limit ++
          (shown.take (stop - 1)).drop (start + limit - 1) := by
      rw [List.drop_take, List.drop_take]
      have hcount : stop - 1 - (start - 1) = limit + (stop - 1 - (start + limit - 1)) := by omega
      have hdrop : start + limit - 1 = (start - 1) + limit := by omega
      rw [hcount, List.take_add, List.drop_drop, hdrop]
    rw [List.flatten_cons, hflatten, hsplit, List.flatten_append]

/-! ### The result -/

section result

variable {m : Mode} {c : FileConfig} {content : List UInt8}

/-- What a request that asks for a page gets. -/
theorem read_eq {input : Json} {offset limit : Nat} (h : Asks c input offset limit)
    (hmax : c.maxBytes ≠ 0) (hline : c.lineChars ≠ 0) :
    read m c (.ok content) input =
      (m.add 64 c.maxBytes.toNat 1).map fun bound =>
        (readable (c.maxBytes.toNat < (content.take bound).length)
            ((content.take bound).take c.maxBytes.toNat)).map fun text =>
          page c.lineChars.toNat offset limit text ++
            note (c.maxBytes.toNat < (content.take bound).length) := by
  have hoffset : offset ≠ 0 := Nat.ne_of_gt h.offsetPos
  have hlimit : limit ≠ 0 := Nat.ne_of_gt h.limitPos
  unfold read
  rw [h.first, h.count]
  simp only [hoffset, hlimit, hmax, hline, or_self, if_false]

/-- When no bytes are read there is nothing to show. -/
theorem read_nothing {input : Json} {offset limit : Nat} (h : Asks c input offset limit)
    (hmax : c.maxBytes ≠ 0) (hline : c.lineChars ≠ 0)
    (hbound : m.add 64 c.maxBytes.toNat 1 = some 0) :
    read m c (.ok content) input = some (.ok []) := by
  have hall : decide (c.maxBytes.toNat < ([] : List UInt8).length) = false :=
    decide_eq_false (Nat.not_lt_zero _)
  have hpage : page c.lineChars.toNat offset limit [] = [] := by
    rw [page_eq, numbered, lines, splitInclusive, List.map_nil, List.zipIdx_nil, List.map_nil,
      List.drop_nil, List.take_nil, List.flatten_nil]
  have htext : readable false [] = .ok [] := rfl
  rw [read_eq h hmax hline, hbound, Option.map_some, List.take_zero, List.take_nil, hall, htext]
  simp only [Except.map, hpage]
  rfl

/-- The bytes that are read show whether there are more. -/
theorem read_enough {input : Json} {offset limit bound : Nat} (h : Asks c input offset limit)
    (hmax : c.maxBytes ≠ 0) (hline : c.lineChars ≠ 0)
    (hbound : m.add 64 c.maxBytes.toNat 1 = some bound)
    (henough : content.take bound = content.take (c.maxBytes.toNat + 1)) :
    read m c (.ok content) input =
      some ((readable (c.maxBytes.toNat < content.length) (content.take c.maxBytes.toNat)).map
        fun text => page c.lineChars.toNat offset limit text ++
          note (c.maxBytes.toNat < content.length)) := by
  have hclipped : decide (c.maxBytes.toNat < (content.take bound).length) =
      decide (c.maxBytes.toNat < content.length) := by
    rw [henough, List.length_take]
    apply decide_eq_decide.mpr
    omega
  have hbytes : (content.take bound).take c.maxBytes.toNat = content.take c.maxBytes.toNat := by
    rw [henough, List.take_take, Nat.min_eq_left (Nat.le_succ _)]
  rw [read_eq h hmax hline, hbound, Option.map_some, hclipped, hbytes]

/-- With enough bytes the pages are right. -/
theorem paged_of_enough {bound : Nat} (hmax : c.maxBytes ≠ 0) (hline : c.lineChars ≠ 0)
    (hbound : m.add 64 c.maxBytes.toNat 1 = some bound)
    (henough : content.take bound = content.take (c.maxBytes.toNat + 1)) : Paged m c content where
  shows := by
    intro chars hchars hnul
    obtain ⟨text, htext, hshown⟩ := @readable_text c.maxBytes.toNat _ _ hchars hnul
    have hread : ∀ input offset limit, Asks c input offset limit →
        read m c (.ok content) input = some (.ok (
          (((numbered c.lineChars.toNat text).drop (offset - 1)).take limit).flatten ++
            note (c.maxBytes.toNat < content.length))) := by
      intro input offset limit hasks
      rw [read_enough hasks hmax hline hbound henough, htext, ← page_eq]
      rfl
    refine ⟨text, hshown, hread, fun inputs stop htiles => ?_⟩
    exact htiles.flatten _ hread
  refuses := by
    intro h input offset limit hasks
    obtain ⟨e, he⟩ := readable_refused h
    rw [read_enough hasks hmax hline hbound henough, he]
    exact ⟨e, rfl⟩

/-- A request for the first line. -/
def firstLine : Json := .object [("limit", .integer 1), ("offset", .integer 1)]

theorem asks_firstLine (c : FileConfig) : Asks c firstLine 1 1 where
  first := rfl
  count := rfl
  offsetPos := Nat.one_pos
  limitPos := Nat.one_pos

/-- A text that is not empty has a first line. -/
theorem numbered_ne_nil (lineChars : Nat) {text : List Char} (h : text ≠ []) :
    ((numbered lineChars text).take 1).flatten ≠ [] := by
  obtain ⟨c, rest, rfl⟩ := List.exists_cons_of_ne_nil h
  have hlines : ∃ line more, lines (c :: rest) = line :: more := by
    unfold lines
    rw [splitInclusive]
    by_cases hc : c = '\n'
    · rw [if_pos hc]
      exact ⟨_, _, List.map_cons⟩
    · rw [if_neg hc]
      cases splitInclusive rest with
      | nil => exact ⟨_, _, List.map_cons⟩
      | cons line more => exact ⟨_, _, List.map_cons⟩
  obtain ⟨line, more, hline⟩ := hlines
  rw [numbered, hline, List.zipIdx_cons, List.map_cons, List.take_succ_cons, List.flatten_cons]
  intro hnil
  have hfirst := (List.append_eq_nil_iff.mp hnil).1
  exact List.cons_ne_nil _ _ (List.append_eq_nil_iff.mp hfirst).2

/-- Every content that fits is shown or refused. -/
theorem text_or_refusable {maxBytes : Nat} (h : content.length ≤ maxBytes) :
    (∃ chars, content = encode chars ∧ 0 ∉ content) ∨ Refusable maxBytes content := by
  by_cases hnul : 0 ∈ content
  · exact Or.inr (Or.inl (by rwa [List.take_of_length_le h]))
  by_cases htext : ∃ chars, content = encode chars
  · obtain ⟨chars, hchars⟩ := htext
    exact Or.inl ⟨chars, hchars, hnul⟩
  · exact Or.inr (Or.inr (Or.inr ⟨h, fun chars hchars => htext ⟨chars, hchars⟩⟩))

/-- A content is read by pages exactly if one byte more than the bound is a number
    of 64 bits, or there is nothing to read and the addition wraps. -/
theorem paged_iff (m : Mode) {c : FileConfig} (hmax : c.maxBytes ≠ 0) (hline : c.lineChars ≠ 0)
    {content : List UInt8} (hsize : content.length < 2 ^ 64) :
    Paged m c content ↔ c.maxBytes.toNat + 1 < 2 ^ 64 ∨ m = .wrapping ∧ content = [] := by
  constructor
  · intro h
    by_contra hnot
    obtain ⟨hlarge, hrest⟩ := not_or.mp hnot
    have hlt : c.maxBytes.toNat < 2 ^ 64 := c.maxBytes.toNat_lt
    have hfits : content.length ≤ c.maxBytes.toNat := by omega
    have hread := @read_eq m c content _ _ _ (asks_firstLine c) hmax hline
    cases m with
    | checked =>
      have hpanic : Mode.checked.add 64 c.maxBytes.toNat 1 = none := if_neg hlarge
      rw [hpanic, Option.map_none] at hread
      rcases text_or_refusable hfits with ⟨chars, hchars, hnul⟩ | hrefusable
      · obtain ⟨text, -, hshows, -⟩ := h.shows chars hchars hnul
        rw [hshows firstLine 1 1 (asks_firstLine c)] at hread
        cases hread
      · obtain ⟨e, he⟩ := h.refuses hrefusable firstLine 1 1 (asks_firstLine c)
        rw [he] at hread
        cases hread
    | wrapping =>
      have hwrap : Mode.wrapping.add 64 c.maxBytes.toNat 1 = some 0 := by
        have hexact : c.maxBytes.toNat + 1 = 2 ^ 64 := by omega
        show (if c.maxBytes.toNat + 1 < 2 ^ 64 then some (c.maxBytes.toNat + 1)
          else some ((c.maxBytes.toNat + 1) % 2 ^ 64)) = some 0
        rw [if_neg hlarge, hexact, Nat.mod_self]
      -- nothing is read at all
      have hempty : read .wrapping c (.ok content) firstLine = some (.ok []) :=
        read_nothing (asks_firstLine c) hmax hline hwrap
      rcases text_or_refusable hfits with ⟨chars, hchars, hnul⟩ | hrefusable
      · obtain ⟨text, hshown, hshows, -⟩ := h.shows chars hchars hnul
        rw [hshows firstLine 1 1 (asks_firstLine c)] at hempty
        have hnil := (List.append_eq_nil_iff.mp (Except.ok.inj (Option.some.inj hempty))).1
        have hne : text ≠ [] := by
          intro htext
          have hall := hshown.whole (by rwa [hchars] at hfits)
          rw [← hall, htext] at hchars
          exact hrest ⟨rfl, hchars⟩
        exact numbered_ne_nil c.lineChars.toNat hne hnil
      · obtain ⟨e, he⟩ := h.refuses hrefusable firstLine 1 1 (asks_firstLine c)
        rw [he] at hempty
        cases Option.some.inj hempty
  · intro h
    rcases h with hlt | ⟨rfl, rfl⟩
    · exact paged_of_enough hmax hline (Mode.add_of_lt hlt) rfl
    · cases hbound : Mode.wrapping.add 64 c.maxBytes.toNat 1 with
      | none =>
        have hsome : Mode.wrapping.add 64 c.maxBytes.toNat 1 ≠ none := by
          unfold Mode.add Mode.fit
          split_ifs
          · exact Option.some_ne_none _
          · exact Option.some_ne_none _
        exact absurd hbound hsome
      | some bound => exact paged_of_enough hmax hline hbound (by rw [List.take_nil, List.take_nil])

end result

/-- A reader of four bytes. -/
def shortReads : FileConfig := ⟨2000, 4, 2000⟩

/-- The bound is inside the third character. -/
theorem paged_iff_shortReads :
    Paged .checked shortReads (encode "a\né!".toList) ↔
      shortReads.maxBytes.toNat + 1 < 2 ^ 64 ∨
        Mode.checked = .wrapping ∧ encode "a\né!".toList = [] :=
  paged_iff .checked (by decide) (by decide) (by decide)

/-- A reader without a bound. -/
def unbounded : FileConfig := ⟨2000, 18446744073709551615, 2000⟩

/-- It panics, or reads nothing and says nothing about it. -/
theorem read_unbounded :
    read .checked unbounded (.ok (encode "a".toList)) firstLine = none ∧
      read .wrapping unbounded (.ok (encode "a".toList)) firstLine = some (.ok []) ∧
      ¬Paged .checked unbounded (encode "a".toList) ∧
      ¬Paged .wrapping unbounded (encode "a".toList) := by
  have hpanic : Mode.checked.add 64 unbounded.maxBytes.toNat 1 = none := by decide
  have hwrap : Mode.wrapping.add 64 unbounded.maxBytes.toNat 1 = some 0 := by decide
  have hchecked : read .checked unbounded (.ok (encode "a".toList)) firstLine = none := by
    rw [read_eq (asks_firstLine unbounded) (by decide) (by decide), hpanic, Option.map_none]
  have hwrapping : read .wrapping unbounded (.ok (encode "a".toList)) firstLine =
      some (.ok []) := by
    exact read_nothing (asks_firstLine unbounded) (by decide) (by decide) hwrap
  have hshows : ∀ m, Paged m unbounded (encode "a".toList) →
      ∃ text, Shown unbounded.maxBytes.toNat "a".toList text ∧
        read m unbounded (.ok (encode "a".toList)) firstLine = some (.ok (
          (((numbered unbounded.lineChars.toNat text).drop 0).take 1).flatten ++
            note (unbounded.maxBytes.toNat < (encode "a".toList).length))) := by
    intro m h
    obtain ⟨text, hshown, hread, -⟩ := h.shows "a".toList rfl (by decide)
    exact ⟨text, hshown, hread firstLine 1 1 (asks_firstLine unbounded)⟩
  refine ⟨hchecked, hwrapping, ?_, ?_⟩
  · intro h
    obtain ⟨text, -, hread⟩ := hshows .checked h
    rw [hchecked] at hread
    cases hread
  · intro h
    obtain ⟨text, hshown, hread⟩ := hshows .wrapping h
    obtain rfl := hshown.whole (by decide)
    rw [hwrapping] at hread
    have hnil := (List.append_eq_nil_iff.mp (Except.ok.inj (Option.some.inj hread)).symm).1
    exact numbered_ne_nil _ (List.cons_ne_nil _ _) hnil

end Kyora.Files
