import Mathlib.Data.Bool.Basic
import Kyora.Framework.Lossy

/-! # Validation of UTF-8

  Validation that says how far a text is valid and why it is not: bytes that no
  text has there, or bytes that end too early. What ends too early is a text cut
  inside a character, and nothing else is.
-/

namespace Utf8

/-- `Utf8Error`. -/
structure Error where
  validUpTo : Nat
  /-- The bytes that are in no text; `none` when the bytes end too early. -/
  errorLen : Option Nat
  deriving DecidableEq, Repr

/-- How the error reads. -/
def Error.text (e : Error) : String :=
  match e.errorLen with
  | some n => "invalid utf-8 sequence of " ++ toString n ++ " bytes from index " ++
    toString e.validUpTo
  | none => "incomplete utf-8 byte sequence from index " ++ toString e.validUpTo

/-- `error_len` of bytes that begin no character. -/
def errorLen : List UInt8 → Option Nat
  | [] => none
  | [first] => if 2 ≤ width first then none else some 1
  | first :: second :: rest =>
    if 3 ≤ width first ∧ secondFits first second then
      match rest with
      | [] => none
      | third :: rest =>
        if width first = 4 ∧ isContinuation third then
          if rest.isEmpty then none else some 3
        else some 2
    else some 1

/-- The characters at the start, and what is left; one round for each character. -/
def validLoop : Nat → List UInt8 → List Char × List UInt8
  | 0, bytes => ([], bytes)
  | fuel + 1, bytes =>
    match decodeChar bytes with
    | some (c, rest) => (c :: (validLoop fuel rest).1, (validLoop fuel rest).2)
    | none => ([], bytes)

/-- `std::str::from_utf8`. -/
def fromUtf8 (bytes : List UInt8) : Except Error (List Char) :=
  let valid := validLoop bytes.length bytes
  if valid.2.isEmpty then .ok valid.1
  else .error ⟨bytes.length - valid.2.length, errorLen valid.2⟩

/-! ### How far a text is valid -/

theorem validLoop_append {text : List Char} {rest : List UInt8} {fuel : Nat}
    (hrest : decodeChar rest = none) (hfuel : (encode text ++ rest).length ≤ fuel) :
    validLoop fuel (encode text ++ rest) = (text, rest) := by
  induction text generalizing fuel with
  | nil =>
    cases fuel with
    | zero => rfl
    | succ fuel =>
      show (match decodeChar rest with
        | some (c, rest) => (c :: (validLoop fuel rest).1, (validLoop fuel rest).2)
        | none => ([], rest)) = ([], rest)
      rw [hrest]
  | cons c text ih =>
    have hpos := length_encodeChar_pos c
    rw [encode_cons, List.append_assoc, List.length_append] at hfuel
    obtain ⟨fuel, rfl⟩ : ∃ k, fuel = k + 1 := ⟨fuel - 1, by omega⟩
    have hstep := @ih fuel (by omega)
    rw [encode_cons, List.append_assoc, validLoop, decodeChar_encode]
    simp only [hstep]

/-- Validation of a text with bytes behind it that begin no character. -/
theorem fromUtf8_append (text : List Char) {rest : List UInt8} (hrest : decodeChar rest = none) :
    fromUtf8 (encode text ++ rest) =
      if rest.isEmpty then .ok text else .error ⟨(encode text).length, errorLen rest⟩ := by
  have hvalid := @validLoop_append text rest _ hrest (Nat.le_refl _)
  have hlength : (encode text ++ rest).length - rest.length = (encode text).length := by
    rw [List.length_append, Nat.add_sub_cancel]
  simp only [fromUtf8, hvalid, hlength]

@[simp] theorem fromUtf8_encode (text : List Char) : fromUtf8 (encode text) = .ok text := by
  have happend := fromUtf8_append text decodeChar_nil
  rw [List.append_nil] at happend
  exact happend

/-- Bytes are a text and bytes behind it that begin no character. -/
theorem exists_valid (bytes : List UInt8) :
    ∃ text rest, bytes = encode text ++ rest ∧ decodeChar rest = none := by
  induction hn : bytes.length using Nat.strongRecOn generalizing bytes with
  | ind n ih =>
    cases hchar : decodeChar bytes with
    | none => exact ⟨[], bytes, rfl, hchar⟩
    | some x =>
      have hbytes := decodeChar_some hchar
      have hlength := congrArg List.length hbytes
      have hpos := length_encodeChar_pos x.1
      rw [List.length_append] at hlength
      obtain ⟨text, rest, htext, hrest⟩ := ih x.2.length (by omega) x.2 rfl
      refine ⟨x.1 :: text, rest, ?_, hrest⟩
      rw [hbytes, htext, encode_cons, List.append_assoc]

/-! ### Bytes that end too early -/

/-- A character cut short ends too early. -/
theorem errorLen_take {c : Char} {k : Nat} (hpos : 0 < k) (hk : k < c.utf8Size) :
    errorLen ((String.utf8EncodeChar c).take k) = none := by
  obtain ⟨first, second, others, hlead⟩ := exists_lead (wide_of_cut hpos hk)
  obtain ⟨first', others', hshape⟩ := exists_shape c
  have hothers : others' = second :: others :=
    (List.cons.inj (hshape.eq.symm.trans hlead.eq)).2
  have hlength := String.length_utf8EncodeChar c
  rw [hlead.eq, List.length_cons, List.length_cons] at hlength
  have hshort := hshape.short
  rw [hothers, List.length_cons] at hshort
  have hwidth := hlead.width
  rw [hlead.eq]
  rcases Nat.lt_or_ge 1 k with hk₂ | hk₁
  · have hfits := hlead.fits (by omega)
    obtain ⟨j, rfl⟩ : ∃ j, k = j + 2 := ⟨k - 2, by omega⟩
    rw [List.take_succ_cons, List.take_succ_cons, errorLen.eq_def]
    simp only [if_pos (show 3 ≤ width first ∧ secondFits first second = true from
      ⟨by omega, hfits⟩)]
    cases others with
    | nil => rw [List.length_nil] at hlength; omega
    | cons third rest =>
      rw [List.length_cons] at hwidth hlength hshort
      cases j with
      | zero => rfl
      | succ j =>
        -- three bytes of four are there
        have hthird : isContinuation third = true := hshape.continues third (by rw [hothers]; simp)
        obtain rfl : j = 0 := by omega
        have hfour : width first = 4 := by omega
        rw [List.take_succ_cons, List.take_zero]
        simp only [hfour, hthird, and_self, if_true, List.isEmpty_nil]
  · obtain rfl : k = 1 := by omega
    rw [List.take_succ_cons, List.take_zero, errorLen, if_pos (by omega)]

theorem exists_char {n : Nat} (h : n < 0xD800 ∨ 0xDFFF < n ∧ n < 0x110000) :
    ∃ c : Char, c.toNat = n := by
  have hvalid : n.isValidChar := h
  refine ⟨Char.ofNat n, ?_⟩
  rw [Char.ofNat, dif_pos hvalid]
  rfl

theorem width_eq_two {b : UInt8} : width b = 2 ↔ 0xC2 ≤ b.toNat ∧ b.toNat < 0xE0 := by
  grind [width]

theorem width_eq_three {b : UInt8} : width b = 3 ↔ 0xE0 ≤ b.toNat ∧ b.toNat < 0xF0 := by
  grind [width]

theorem width_eq_four {b : UInt8} : width b = 4 ↔ 0xF0 ≤ b.toNat ∧ b.toNat < 0xF5 := by
  grind [width]

theorem width_le_four (b : UInt8) : width b ≤ 4 := by
  grind [width]

/-- A byte is what its number says. -/
theorem ofNat_of_toNat {b : UInt8} {n : Nat} (h : n = b.toNat) : UInt8.ofNat n = b := by
  rw [h, UInt8.ofNat_toNat]

/-- The second bytes, as numbers. -/
theorem secondFits_iff {first second : UInt8} : secondFits first second = true ↔
    0x80 ≤ second.toNat ∧ second.toNat < 0xC0 ∧
    (first.toNat = 0xE0 → 0xA0 ≤ second.toNat) ∧ (first.toNat = 0xED → second.toNat < 0xA0) ∧
    (first.toNat = 0xF0 → 0x90 ≤ second.toNat) ∧ (first.toNat = 0xF4 → second.toNat < 0x90) := by
  grind [secondFits, isContinuation]

/-- Every first byte has a second one that goes with it. -/
theorem exists_secondFits (first : UInt8) : ∃ second, secondFits first second = true := by
  by_cases hsmall : first.toNat = 0xED ∨ first.toNat = 0xF4
  · exact ⟨0x80, secondFits_iff.mpr (by
      have hsecond : (0x80 : UInt8).toNat = 0x80 := rfl
      omega)⟩
  · exact ⟨0xA0, secondFits_iff.mpr (by
      have hsecond : (0xA0 : UInt8).toNat = 0xA0 := rfl
      omega)⟩

/-! The first bytes of a longer character are those of some character. -/

theorem exists_two (first : UInt8) (hwidth : width first = 2) :
    ∃ c second, String.utf8EncodeChar c = [first, second] := by
  obtain ⟨hlow, hhigh⟩ := width_eq_two.mp hwidth
  obtain ⟨n, hn⟩ : ∃ n, n = (first.toNat - 192) * 64 := ⟨_, rfl⟩
  obtain ⟨c, hc⟩ := exists_char (n := n) (by omega)
  have hv : c.val.toNat = n := hc
  refine ⟨c, UInt8.ofNat (n % 64 + 128), ?_⟩
  simp only [String.utf8EncodeChar, hv, if_neg (show ¬n ≤ 127 by omega),
    if_pos (show n ≤ 2047 by omega)]
  rw [ofNat_of_toNat (b := first) (by omega)]

theorem exists_three {first second : UInt8} (hwidth : width first = 3)
    (hfits : secondFits first second = true) :
    ∃ c third, String.utf8EncodeChar c = [first, second, third] := by
  obtain ⟨hlow, hhigh⟩ := width_eq_three.mp hwidth
  obtain ⟨hfrom, hto, hE0, hED, -, -⟩ := secondFits_iff.mp hfits
  obtain ⟨n, hn⟩ : ∃ n, n = (first.toNat - 224) * 4096 + (second.toNat - 128) * 64 := ⟨_, rfl⟩
  obtain ⟨c, hc⟩ := exists_char (n := n) (by omega)
  have hv : c.val.toNat = n := hc
  refine ⟨c, UInt8.ofNat (n % 64 + 128), ?_⟩
  simp only [String.utf8EncodeChar, hv, if_neg (show ¬n ≤ 127 by omega),
    if_neg (show ¬n ≤ 2047 by omega), if_pos (show n ≤ 65535 by omega)]
  rw [ofNat_of_toNat (b := first) (by omega), ofNat_of_toNat (b := second) (by omega)]

theorem exists_four {first second : UInt8} (third : UInt8) (hwidth : width first = 4)
    (hfits : secondFits first second = true) (hthird : isContinuation third = true) :
    ∃ c fourth, String.utf8EncodeChar c = [first, second, third, fourth] := by
  obtain ⟨hlow, hhigh⟩ := width_eq_four.mp hwidth
  obtain ⟨hfrom, hto, -, -, hF0, hF4⟩ := secondFits_iff.mp hfits
  simp only [isContinuation, Bool.and_eq_true, decide_eq_true_eq] at hthird
  obtain ⟨n, hn⟩ : ∃ n, n = (first.toNat - 240) * 262144 + (second.toNat - 128) * 4096 +
    (third.toNat - 128) * 64 := ⟨_, rfl⟩
  obtain ⟨c, hc⟩ := exists_char (n := n) (by omega)
  have hv : c.val.toNat = n := hc
  refine ⟨c, UInt8.ofNat (n % 64 + 128), ?_⟩
  simp only [String.utf8EncodeChar, hv, if_neg (show ¬n ≤ 127 by omega),
    if_neg (show ¬n ≤ 2047 by omega), if_neg (show ¬n ≤ 65535 by omega)]
  rw [ofNat_of_toNat (b := first) (by omega), ofNat_of_toNat (b := second) (by omega),
    ofNat_of_toNat (b := third) (by omega)]

/-- Bytes with which a character starts, but not all of them. -/
def CutShort (rest : List UInt8) : Prop :=
  ∃ c k, 0 < k ∧ k < c.utf8Size ∧ rest = (String.utf8EncodeChar c).take k

theorem CutShort.of_bytes {c : Char} (rest : List UInt8) {more : List UInt8}
    (h : String.utf8EncodeChar c = rest ++ more) (hrest : rest ≠ []) (hmore : more ≠ []) :
    CutShort rest := by
  have hlength := congrArg List.length h
  rw [String.length_utf8EncodeChar, List.length_append] at hlength
  have hpos := List.length_pos_iff.mpr hmore
  exact ⟨c, rest.length, List.length_pos_iff.mpr hrest, by omega, by rw [h, List.take_left]⟩

/-- What ends too early is a character cut short. -/
theorem cutShort_of_errorLen {rest : List UInt8} (hne : rest ≠ []) (h : errorLen rest = none) :
    CutShort rest := by
  have hlongest : ∀ first, width first ≤ 4 := width_le_four
  match rest, hne, h with
  | [first], _, h =>
    rw [errorLen] at h
    split_ifs at h with hwidth
    obtain ⟨second, hfits⟩ := exists_secondFits first
    have hle := hlongest first
    rcases Nat.lt_or_ge 2 (width first) with hlong | hshort
    · rcases Nat.lt_or_ge 3 (width first) with hfour | hthree
      · obtain ⟨c, fourth, hc⟩ := exists_four 0x80 (by omega) hfits rfl
        exact .of_bytes [first] hc (List.cons_ne_nil _ _) (List.cons_ne_nil _ _)
      · obtain ⟨c, third, hc⟩ := exists_three (by omega) hfits
        exact .of_bytes [first] hc (List.cons_ne_nil _ _) (List.cons_ne_nil _ _)
    · obtain ⟨c, second, hc⟩ := exists_two first (by omega)
      exact .of_bytes [first] hc (List.cons_ne_nil _ _) (List.cons_ne_nil _ _)
  | [first, second], _, h =>
    rw [errorLen.eq_def] at h
    simp only at h
    split_ifs at h with hfits
    have hle := hlongest first
    rcases Nat.lt_or_ge 3 (width first) with hfour | hthree
    · obtain ⟨c, fourth, hc⟩ := exists_four 0x80 (by omega) hfits.2 rfl
      exact .of_bytes [first, second] hc (List.cons_ne_nil _ _) (List.cons_ne_nil _ _)
    · obtain ⟨c, third, hc⟩ := exists_three (by omega) hfits.2
      exact .of_bytes [first, second] hc (List.cons_ne_nil _ _) (List.cons_ne_nil _ _)
  | first :: second :: third :: more, _, h =>
    rw [errorLen.eq_def] at h
    simp only at h
    split_ifs at h with hfits hfour hempty
    obtain rfl := List.isEmpty_iff.mp hempty
    obtain ⟨c, fourth, hc⟩ := exists_four third hfour.1 hfits.2 hfour.2
    exact .of_bytes [first, second, third] hc (List.cons_ne_nil _ _)
      (List.cons_ne_nil _ _)

/-! ### Fronts of texts -/

/-- Bytes that some text starts with. -/
def IsFront (bytes : List UInt8) : Prop := ∃ text, bytes <+: encode text

/-- The front of a text is a text, or a text and a character cut short. -/
theorem front_cases {bytes : List UInt8} (h : IsFront bytes) :
    (∃ text, bytes = encode text) ∨
      ∃ text rest, bytes = encode text ++ rest ∧ CutShort rest := by
  obtain ⟨text, hprefix⟩ := h
  have htake := List.prefix_iff_eq_take.mp hprefix
  rcases exists_cut hprefix.length_le with
    ⟨before, after, rfl, hlength⟩ | ⟨before, c, after, k, rfl, hpos, hk, hlength⟩
  · left
    refine ⟨before, ?_⟩
    rw [htake, ← hlength, encode_append, List.take_left]
  · right
    refine ⟨before, (String.utf8EncodeChar c).take k, ?_, c, k, hpos, hk, rfl⟩
    rw [htake, hlength, (cut_inside before after c (Nat.le_of_lt hk)).1]

theorem CutShort.ne_nil {rest : List UInt8} (h : CutShort rest) : rest.isEmpty = false := by
  obtain ⟨c, k, hpos, hk, rfl⟩ := h
  apply Bool.eq_false_iff.mpr
  intro hempty
  have hlength := congrArg List.length (List.isEmpty_iff.mp hempty)
  rw [List.length_take, String.length_utf8EncodeChar, List.length_nil] at hlength
  omega

theorem CutShort.isFront {rest : List UInt8} (h : CutShort rest) (text : List Char) :
    IsFront (encode text ++ rest) := by
  obtain ⟨c, k, -, -, rfl⟩ := h
  refine ⟨text ++ [c], ?_⟩
  rw [encode_append, encode_cons, encode_nil, List.append_nil]
  exact (List.prefix_append_right_inj _).mpr (List.take_prefix k _)

/-- Validation of a text cut inside a character. -/
theorem fromUtf8_cut (text : List Char) {rest : List UInt8} (h : CutShort rest) :
    fromUtf8 (encode text ++ rest) = .error ⟨(encode text).length, none⟩ := by
  have hempty := h.ne_nil
  obtain ⟨c, k, hpos, hk, rfl⟩ := h
  rw [fromUtf8_append text (decodeChar_take hk), if_neg (by rw [hempty]; exact Bool.false_ne_true),
    errorLen_take hpos hk]

/-- What validation says: a text, a text cut inside a character, or neither. -/
theorem fromUtf8_cases (bytes : List UInt8) :
    (∃ text, bytes = encode text ∧ fromUtf8 bytes = .ok text) ∨
    (∃ text rest, bytes = encode text ++ rest ∧ CutShort rest ∧
      fromUtf8 bytes = .error ⟨(encode text).length, none⟩) ∨
    ¬IsFront bytes ∧ ∃ at_ n, fromUtf8 bytes = .error ⟨at_, some n⟩ := by
  obtain ⟨text, rest, rfl, hrest⟩ := exists_valid bytes
  cases rest with
  | nil =>
    rw [List.append_nil]
    exact Or.inl ⟨text, rfl, fromUtf8_encode text⟩
  | cons b rest =>
    cases herror : errorLen (b :: rest) with
    | none =>
      have hcut := cutShort_of_errorLen (List.cons_ne_nil b rest) herror
      exact Or.inr (Or.inl ⟨text, b :: rest, rfl, hcut, fromUtf8_cut text hcut⟩)
    | some n =>
      have hresult : fromUtf8 (encode text ++ b :: rest) =
          .error ⟨(encode text).length, some n⟩ := by
        rw [fromUtf8_append text hrest, herror]
        rfl
      refine Or.inr (Or.inr ⟨fun hfront => ?_, _, n, hresult⟩)
      -- validation would have said otherwise
      rcases front_cases hfront with ⟨other, hother⟩ | ⟨other, cut, hother, hcut⟩
      · rw [hother, fromUtf8_encode] at hresult
        cases hresult
      · rw [hother, fromUtf8_cut other hcut] at hresult
        have hnone := congrArg Error.errorLen (Except.error.inj hresult)
        cases hnone

end Utf8
