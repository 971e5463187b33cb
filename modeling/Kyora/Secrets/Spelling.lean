import Kyora.Secrets.Redaction

/-! # The spellings of a value in JSON

  A JSON string can write each of its characters in several ways. The scan reads
  every way back as the character it stands for, so a value that starts at a token
  is found in the decoded text however it is spelled.
-/

namespace Kyora

open Ranges (Covered Separated replace sources)

/-! ### Spellings -/

/-- The value of a hexadecimal digit of a text, in either case. -/
def hexValue? (c : Char) : Option Nat :=
  if 48 ≤ c.toNat ∧ c.toNat ≤ 57 then some (c.toNat - 48)
  else if 65 ≤ c.toNat ∧ c.toNat ≤ 70 then some (c.toNat - 55)
  else if 97 ≤ c.toNat ∧ c.toNat ≤ 102 then some (c.toNat - 87)
  else none

/-- Four hexadecimal digits and the number they stand for. -/
inductive Hex4 : List Char → Nat → Prop where
  | digits {c₁ c₂ c₃ c₄ : Char} {d₁ d₂ d₃ d₄ : Nat} (h₁ : hexValue? c₁ = some d₁)
    (h₂ : hexValue? c₂ = some d₂) (h₃ : hexValue? c₃ = some d₃) (h₄ : hexValue? c₄ = some d₄) :
    Hex4 [c₁, c₂, c₃, c₄] (16 * (16 * (16 * d₁ + d₂) + d₃) + d₄)

/-- The two-character escapes of JSON: the character after the backslash, and the
    character it stands for. -/
def shortEscapes : List (Char × Char) :=
  [('"', '"'), ('\\', '\\'), ('/', '/'), ('b', '\x08'), ('f', '\x0c'), ('n', '\n'), ('r', '\r'),
    ('t', '\t')]

/-- The ways to write a character in a JSON string. -/
inductive Spells : Char → List Char → Prop where
  | literal {c : Char} (hslash : c ≠ '\\') (hquote : c ≠ '"') (hcontrol : 0x20 ≤ c.toNat) :
    Spells c [c]
  | short {c letter : Char} (h : (letter, c) ∈ shortEscapes) : Spells c ['\\', letter]
  | unit {c : Char} {digits : List Char} (h : Hex4 digits c.toNat) :
    Spells c ('\\' :: 'u' :: digits)
  /-- A surrogate pair: ten bits of `c - 0x10000` each. -/
  | pair {c : Char} {high low : List Char} (hwide : 0x10000 ≤ c.toNat)
    (hhigh : Hex4 high (0xD800 + (c.toNat - 0x10000) / 0x400))
    (hlow : Hex4 low (0xDC00 + (c.toNat - 0x10000) % 0x400)) :
    Spells c ('\\' :: 'u' :: high ++ '\\' :: 'u' :: low)

/-- The ways to write a text in a JSON string: each character in one of its ways. -/
inductive Spelling : List Char → List Char → Prop where
  | nil : Spelling [] []
  | cons {c : Char} {text part rest : List Char} (h : Spells c part) (hrest : Spelling text rest) :
    Spelling (c :: text) (part ++ rest)

/-! ### Reading escapes -/

theorem encode_ascii {c : Char} (h : c.toNat < 128) :
    String.utf8EncodeChar c = [UInt8.ofNat c.toNat] := by
  obtain ⟨first, others, hshape⟩ := Utf8.exists_shape c
  obtain ⟨hfirst, rfl⟩ := hshape.ascii h
  rw [hshape.eq, ← hfirst, UInt8.ofNat_toNat]

/-- A digit is one byte, which the scan reads as the same number. -/
theorem hexDigit?_encode {c : Char} {d : Nat} (h : hexValue? c = some d) :
    ∃ b, String.utf8EncodeChar c = [b] ∧ hexDigit? b = some d := by
  have hascii : c.toNat < 128 := by
    unfold hexValue? at h
    split at h
    · omega
    · split at h
      · omega
      · split at h
        · omega
        · cases h
  refine ⟨_, encode_ascii hascii, ?_⟩
  have hb : (UInt8.ofNat c.toNat).toNat = c.toNat := by
    rw [UInt8.toNat_ofNat']
    omega
  rw [hexDigit?, hb]
  unfold hexValue? at h
  split at h
  · next hc => rw [if_pos hc]; exact h
  · next hc =>
    rw [if_neg hc]
    split at h
    · next hc' =>
      rw [if_pos hc', ← Option.some.inj h]
      exact congrArg some (by omega)
    · next hc' =>
      rw [if_neg hc']
      split at h
      · next hc'' =>
        rw [if_pos hc'', ← Option.some.inj h]
        exact congrArg some (by omega)
      · cases h

theorem hex4_encode {digits : List Char} {n : Nat} (h : Hex4 digits n) :
    ∃ b₁ b₂ b₃ b₄, Utf8.encode digits = [b₁, b₂, b₃, b₄] ∧ hex4 [b₁, b₂, b₃, b₄] = some n := by
  cases h with
  | digits h₁ h₂ h₃ h₄ =>
    obtain ⟨b₁, he₁, hd₁⟩ := hexDigit?_encode h₁
    obtain ⟨b₂, he₂, hd₂⟩ := hexDigit?_encode h₂
    obtain ⟨b₃, he₃, hd₃⟩ := hexDigit?_encode h₃
    obtain ⟨b₄, he₄, hd₄⟩ := hexDigit?_encode h₄
    refine ⟨b₁, b₂, b₃, b₄, ?_, ?_⟩
    · simp only [Utf8.encode_cons, Utf8.encode_nil, he₁, he₂, he₃, he₄]
      rfl
    · simp [hex4, hd₁, hd₂, hd₃, hd₄]

/-- No character is a surrogate. -/
theorem char_cases (c : Char) : c.toNat < 0xD800 ∨ 0xDFFF < c.toNat ∧ c.toNat < 0x110000 := c.valid

theorem charFromU32_toNat_self (c : Char) : charFromU32 c.toNat = some c := by
  rw [charFromU32, if_pos (show c.toNat.isValidChar from c.valid), Char.ofNat_toNat]

theorem unicode_unit {c : Char} {digits : List Char} (h : Hex4 digits c.toNat)
    (rest : List Char) :
    unicode (Utf8.encode ('\\' :: 'u' :: digits ++ rest)) = some (c, 6) := by
  obtain ⟨b₁, b₂, b₃, b₄, hbytes, hvalue⟩ := hex4_encode h
  have hencode : Utf8.encode ('\\' :: 'u' :: digits ++ rest) =
      0x5C :: 0x75 :: b₁ :: b₂ :: b₃ :: b₄ :: Utf8.encode rest := by
    have hsplit : '\\' :: 'u' :: digits ++ rest = ['\\', 'u'] ++ digits ++ rest := rfl
    rw [hsplit, Utf8.encode_append, Utf8.encode_append, hbytes]
    rfl
  have hslice : getSlice (0x5C :: 0x75 :: b₁ :: b₂ :: b₃ :: b₄ :: Utf8.encode rest) 2 6 =
      some [b₁, b₂, b₃, b₄] := by
    rw [getSlice, if_pos (by simp)]
    rfl
  have hcases := char_cases c
  rw [hencode, unicode, hslice, Option.bind_eq_bind, Option.bind_some, hvalue,
    Option.bind_eq_bind, Option.bind_some, if_neg (by omega), if_neg (by omega),
    charFromU32_toNat_self]
  rfl

theorem unicode_pair {c : Char} {high low : List Char} (hwide : 0x10000 ≤ c.toNat)
    (hhigh : Hex4 high (0xD800 + (c.toNat - 0x10000) / 0x400))
    (hlow : Hex4 low (0xDC00 + (c.toNat - 0x10000) % 0x400)) (rest : List Char) :
    unicode (Utf8.encode ('\\' :: 'u' :: high ++ '\\' :: 'u' :: low ++ rest)) =
      some (c, 12) := by
  obtain ⟨b₁, b₂, b₃, b₄, hbytes, hvalue⟩ := hex4_encode hhigh
  obtain ⟨b₅, b₆, b₇, b₈, hbytes', hvalue'⟩ := hex4_encode hlow
  have hencode : Utf8.encode ('\\' :: 'u' :: high ++ '\\' :: 'u' :: low ++ rest) =
      0x5C :: 0x75 :: b₁ :: b₂ :: b₃ :: b₄ :: 0x5C :: 0x75 :: b₅ :: b₆ :: b₇ :: b₈ ::
        Utf8.encode rest := by
    have hsplit : '\\' :: 'u' :: high ++ '\\' :: 'u' :: low ++ rest =
        ['\\', 'u'] ++ high ++ (['\\', 'u'] ++ low) ++ rest := rfl
    rw [hsplit, Utf8.encode_append, Utf8.encode_append, Utf8.encode_append, Utf8.encode_append,
      hbytes, hbytes']
    rfl
  generalize hall : 0x5C :: 0x75 :: b₁ :: b₂ :: b₃ :: b₄ :: 0x5C :: 0x75 :: b₅ :: b₆ :: b₇ :: b₈ ::
    Utf8.encode rest = bytes at hencode
  have hfirst : getSlice bytes 2 6 = some [b₁, b₂, b₃, b₄] := by
    rw [← hall, getSlice, if_pos (by simp)]
    rfl
  have hmiddle : getSlice bytes 6 8 = some [0x5C, 0x75] := by
    rw [← hall, getSlice, if_pos (by simp)]
    rfl
  have hlast : getSlice bytes 8 12 = some [b₅, b₆, b₇, b₈] := by
    rw [← hall, getSlice, if_pos (by simp)]
    rfl
  have hcases := char_cases c
  -- the two halves give the character back
  have hcode : 0x10000 + (0xD800 + (c.toNat - 0x10000) / 0x400 - 0xD800) * 2 ^ 10 +
      (0xDC00 + (c.toNat - 0x10000) % 0x400 - 0xDC00) = c.toNat := by omega
  rw [hencode, unicode, hfirst, Option.bind_eq_bind, Option.bind_some, hvalue,
    Option.bind_eq_bind, Option.bind_some, if_pos (by omega), hmiddle, Option.bind_eq_bind,
    Option.bind_some, if_neg (by simp), hlast, Option.bind_some, hvalue', Option.bind_some,
    if_pos (by omega), hcode, charFromU32_toNat_self]
  rfl

theorem Hex4.length {digits : List Char} {n : Nat} (h : Hex4 digits n) :
    (Utf8.encode digits).length = 4 := by
  obtain ⟨b₁, b₂, b₃, b₄, hbytes, -⟩ := hex4_encode h
  rw [hbytes]
  rfl

theorem encode_escape (part : List Char) :
    Utf8.encode ('\\' :: 'u' :: part) = 0x5C :: 0x75 :: Utf8.encode part := rfl

theorem unescape_unicode (bytes : List UInt8) :
    unescape (0x5C :: 0x75 :: bytes) = unicode (0x5C :: 0x75 :: bytes) := by
  rw [unescape, if_pos rfl]

theorem nextToken_escape {bytes : List UInt8} {c : Char} {n : Nat}
    (h : unescape bytes = some (c, n)) : nextToken bytes = some ⟨c, n, true⟩ := by
  rw [nextToken, h]

theorem nextToken_literal {c : Char} (hslash : c ≠ '\\') (rest : List Char) :
    nextToken (Utf8.encode (c :: rest)) = some ⟨c, c.utf8Size, false⟩ := by
  obtain ⟨first, others, hshape⟩ := Utf8.exists_shape c
  have hne : first ≠ 0x5C := by
    rintro rfl
    rcases Nat.lt_or_ge c.toNat 128 with hascii | hwide
    · have hcode : (92 : Nat) = c.toNat := (hshape.ascii hascii).1
      exact hslash (by rw [← Char.ofNat_toNat c, ← hcode])
    · exact absurd (hshape.wide hwide) (by decide)
  have hescape : unescape (Utf8.encode (c :: rest)) = none := by
    rw [Utf8.encode_cons, hshape.eq]
    unfold unescape
    split
    · next heq => exact absurd (List.cons.inj heq).1 hne
    · rfl
  rw [nextToken, hescape, Utf8.encode_cons, Utf8.decodeChar_encode]
  rfl

theorem shortEscapes_read : ∀ x ∈ shortEscapes, x.1.toNat < 128 ∧
    UInt8.ofNat x.1.toNat ≠ 0x75 ∧ simpleEscape (UInt8.ofNat x.1.toNat) = some x.2 := by
  decide

/-! ### The scan of a spelling -/

/-- Whatever follows, a spelled character is one token. -/
theorem nextToken_spells {c : Char} {part : List Char} (h : Spells c part) (rest : List Char) :
    ∃ escape, nextToken (Utf8.encode (part ++ rest)) =
      some ⟨c, (Utf8.encode part).length, escape⟩ := by
  cases h with
  | literal hslash hquote hcontrol =>
    refine ⟨false, ?_⟩
    rw [List.singleton_append, nextToken_literal hslash, Utf8.encode_cons, Utf8.encode_nil,
      List.append_nil, String.length_utf8EncodeChar]
  | @short letter hmem =>
    obtain ⟨hascii, hne, hread⟩ := shortEscapes_read _ hmem
    have hpart : Utf8.encode ['\\', letter] = [0x5C, UInt8.ofNat letter.toNat] := by
      rw [encode_backslash, Utf8.encode_cons, encode_ascii hascii]
      rfl
    have hescape : unescape (0x5C :: UInt8.ofNat letter.toNat :: Utf8.encode rest) =
        some (c, 2) := by
      rw [unescape, if_neg hne, hread]
      rfl
    refine ⟨true, ?_⟩
    rw [Utf8.encode_append, hpart]
    exact nextToken_escape hescape
  | unit hdigits =>
    refine ⟨true, ?_⟩
    have hescape := unicode_unit hdigits rest
    rw [List.cons_append, List.cons_append, encode_escape, ← unescape_unicode] at hescape
    rw [List.cons_append, List.cons_append, encode_escape, nextToken_escape hescape, encode_escape,
      List.length_cons, List.length_cons, hdigits.length]
  | @pair high low hwide hhigh hlow =>
    refine ⟨true, ?_⟩
    have hescape := unicode_pair hwide hhigh hlow rest
    have hlength : (Utf8.encode ('\\' :: 'u' :: high ++ '\\' :: 'u' :: low)).length = 12 := by
      rw [Utf8.encode_append, encode_escape, encode_escape]
      simp [hhigh.length, hlow.length]
    rw [List.append_assoc, List.cons_append, List.cons_append, encode_escape,
      ← unescape_unicode] at hescape
    rw [hlength, List.append_assoc, List.cons_append, List.cons_append, encode_escape,
      nextToken_escape hescape]

theorem Spells.ne_nil {c : Char} {part : List Char} (h : Spells c part) : part ≠ [] := by
  cases h <;> exact List.cons_ne_nil _ _

/-- A spelled text is read back token by token. -/
theorem Spelling.scan {text spelled : List Char} (h : Spelling text spelled) {rest : List Char}
    {ts : List Token} (hscan : Scan (Utf8.encode (spelled ++ rest)) ts) :
    ∃ found after, ts = found ++ after ∧ decodedBy found = text ∧
      usedBy found = (Utf8.encode spelled).length ∧ Scan (Utf8.encode rest) after := by
  induction h generalizing ts with
  | nil => exact ⟨[], ts, rfl, rfl, rfl, hscan⟩
  | @cons c text part more hspells hrest ih =>
    rw [List.append_assoc] at hscan
    obtain ⟨escape, hnext⟩ := nextToken_spells hspells (more ++ rest)
    cases ts with
    | nil =>
      have hnil := Scan.nil_iff.mp hscan
      exact absurd (List.append_eq_nil_iff.mp hnil).1 hspells.ne_nil
    | cons t ts =>
      obtain ⟨hnext', hlater⟩ := hscan.cons_inv
      obtain rfl := Option.some.inj (hnext.symm.trans hnext')
      rw [Utf8.encode_append, List.drop_left] at hlater
      obtain ⟨found, after, rfl, hdecoded, hused, hafter⟩ := ih hlater
      refine ⟨_ :: found, after, rfl, ?_, ?_, hafter⟩
      · rw [decodedBy_cons, hdecoded]
      · rw [usedBy_cons, hused, Utf8.encode_append, List.length_append]

/-! ### Redacting a spelling -/

/-- The scan of a text reaches a position at a token boundary. -/
def AtToken (before after : List Char) : Prop :=
  ∃ ts ts', Scan (Utf8.encode (before ++ after)) (ts ++ ts') ∧
    usedBy ts = (Utf8.encode before).length

/-- The output is the text with some ranges replaced by a placeholder each, which
    have all the given positions; none of these is copied. -/
def Hides (text : List UInt8) (out : Option (List UInt8)) (hidden : Nat → Prop) : Prop :=
  ∃ ranges, Separated ranges ∧ out = some (replace redacted text 0 ranges) ∧
    ∀ i, hidden i → Covered ranges i ∧ some i ∉ sources text.length 0 ranges

section redaction

variable {search : Search} {s : Secrets} {v : SecretValue} {before spelled after : List Char}

/-- A spelling at a token boundary is a decoded occurrence. -/
theorem Spelling.occurs (h : Spelling v.text spelled) (hv : v ∈ s.values)
    (hat : AtToken before (spelled ++ after)) :
    OccursDecoded s (Utf8.encode (before ++ (spelled ++ after)))
      ((Utf8.encode before).length, (Utf8.encode before).length + (Utf8.encode spelled).length) := by
  obtain ⟨ts, ts', hscan, hused⟩ := hat
  obtain ⟨before', rest, htext, hlength, hrest⟩ := hscan.split
  have hbytes : Utf8.encode before ++ Utf8.encode (spelled ++ after) =
      Utf8.encode before' ++ Utf8.encode rest := by
    rw [← Utf8.encode_append, ← Utf8.encode_append, htext]
  -- the tokens in front are the text in front
  obtain ⟨-, htail⟩ := List.append_inj hbytes (by rw [hlength, hused])
  obtain rfl := Utf8.encode_injective htail
  obtain ⟨found, after', rfl, hdecoded, hfound, -⟩ := h.scan hrest
  refine ⟨ts, found, after', ?_, ⟨v, hv, hdecoded⟩, ?_⟩
  · rw [List.append_assoc]
    exact hscan
  · rw [usedBy_append, hused, hfound]

/-- No spelling is longer than the reach. -/
theorem Spelling.length_le (h : Spelling v.text spelled) (hv : v ∈ s.values) :
    (Utf8.encode spelled).length ≤ s.reach := by
  obtain ⟨ts, hscan⟩ := exists_scan (spelled ++ [])
  have hoccurs := h.occurs hv (show AtToken [] (spelled ++ []) from ⟨[], ts, hscan, rfl⟩)
  have hbound := hoccurs.bounds.2.1
  rw [Utf8.encode_nil, List.length_nil, Nat.zero_add, Nat.zero_add] at hbound
  exact hbound

/-- Redaction hides the bytes of the occurrences. -/
theorem redact_hides (hsearch : Reports search) (s : Secrets) {text : List Char}
    (hsize : (Utf8.encode text).length + 1 < 2 ^ 32) :
    Hides (Utf8.encode text) (s.redact search (Utf8.encode text))
      (SecretByte s (Utf8.encode text) false) := by
  have hsize' : (Utf8.encode text).length + 1 + false.toNat < 2 ^ 32 := hsize
  obtain ⟨a, ranges, out, hredact, href, -⟩ := redactSpans_spec hsearch hsize' s 0
  obtain rfl : a = 0 :=
    Nat.le_zero.mp (href.first.2 ⟨Utf8.isBoundary_zero _, Nat.min_le_left _ _⟩)
  refine ⟨ranges, href.maximal.separated, ?_, ?_⟩
  · rw [← href.out]
    exact hredact
  · intro i hi
    have hcovered := (href.maximal.covered i).mpr hi
    refine ⟨hcovered, ?_⟩
    intro hmem
    exact ((Ranges.mem_sources href.maximal.separated _ _ _).mp hmem).2.2 hcovered

/-- Every spelling of a value at a token boundary is hidden, in every text that is
    not too large to map. -/
theorem redact_spelling (hsearch : Reports search) (hv : v ∈ s.values)
    (h : Spelling v.text spelled) :
    (Utf8.encode spelled).length ≤ s.reach ∧
    ∀ before after, AtToken before (spelled ++ after) →
      (Utf8.encode (before ++ (spelled ++ after))).length < 2 ^ 32 - 1 →
      Hides (Utf8.encode (before ++ (spelled ++ after)))
        (s.redact search (Utf8.encode (before ++ (spelled ++ after)))) fun i =>
          (Utf8.encode before).length ≤ i ∧
            i < (Utf8.encode before).length + (Utf8.encode spelled).length := by
  refine ⟨h.length_le hv, ?_⟩
  intro before after hat hsize
  have hsize' : (Utf8.encode (before ++ (spelled ++ after))).length + 1 < 2 ^ 32 := by omega
  obtain ⟨ranges, hseparated, hredact, hhidden⟩ := redact_hides hsearch s hsize'
  refine ⟨ranges, hseparated, hredact, ?_⟩
  intro i hi
  exact hhidden i ⟨_, Or.inr (Or.inl (h.occurs hv hat)), hi⟩

/-! ### Texts that are too large -/

/-- A text that is too large to map is searched as it is. -/
theorem findMatches_large {text : List UInt8} (hsize : 2 ^ 32 ≤ text.length + 1) :
    s.findMatches search text false = some (search (s.values.map SecretValue.bytes) text) := by
  have hnew : Decoded.new text false = some none := by rw [Decoded.new, if_pos hsize]
  simp only [Secrets.findMatches, hnew, Option.bind_eq_bind, Option.bind_some, Bool.false_eq_true,
    if_false]
  rfl

/-- The start of a text is a boundary. -/
theorem alignUp_zero (text : List UInt8) :
    Secrets.alignUp text text.length (min 0 text.length) = 0 := by
  rw [Nat.zero_min]
  cases text.length with
  | zero => rfl
  | succ n => exact if_pos (Utf8.isBoundary_zero text)

theorem slice_whole (text : List UInt8) : slice text 0 text.length = some text := by
  rw [Spans.slice_eq (Nat.zero_le _) (Utf8.isBoundary_zero _) (Utf8.isBoundary_length _),
    List.take_length, List.drop_zero]

/-- It is left as it is when no value occurs in it literally. -/
theorem redact_large (hsearch : Reports search) {text : List UInt8}
    (hsize : 2 ^ 32 ≤ text.length + 1)
    (hno : ∀ r, ¬Occurs (s.values.map SecretValue.bytes) text r) :
    s.redact search text = some text := by
  have hfound : search (s.values.map SecretValue.bytes) text = [] :=
    List.eq_nil_iff_forall_not_mem.mpr fun r hr => hno r ((hsearch.mem_iff ..).mp hr)
  simp only [Secrets.redact, Secrets.redactFrom, Secrets.redactSpans, alignUp_zero,
    findMatches_large hsize, hfound]
  by_cases hvalues : s.values.isEmpty = true
  · rw [if_pos hvalues, slice_whole]
  · rw [if_neg hvalues]
    show (slice text 0 text.length).map _ = _
    rw [slice_whole]
    rfl

end redaction

/-- The first letter of the value is written as an escape. -/
def escapedPassword : List Char := "\\u0061bcdef".toList

theorem spelling_escapedPassword : Spelling "abcdef".toList escapedPassword := by
  have hletter : ∀ c, c ∈ "bcdef".toList → Spells c [c] := by
    have hplain : "bcdef".toList.all
        (fun c => decide (c ≠ '\\' ∧ c ≠ '"' ∧ 0x20 ≤ c.toNat)) = true := by decide
    intro c hc
    obtain ⟨hslash, hquote, hcontrol⟩ := of_decide_eq_true (List.all_eq_true.mp hplain c hc)
    exact .literal hslash hquote hcontrol
  have hdigits : Hex4 "0061".toList (16 * (16 * (16 * 0 + 0) + 6) + 1) := .digits rfl rfl rfl rfl
  have ha : Spells 'a' ('\\' :: 'u' :: "0061".toList) := .unit hdigits
  exact .cons ha (.cons (hletter 'b' (by decide)) (.cons (hletter 'c' (by decide))
    (.cons (hletter 'd' (by decide)) (.cons (hletter 'e' (by decide))
      (.cons (hletter 'f' (by decide)) .nil)))))

/-- Padding without escapes. -/
def padding (n : Nat) : List Char := List.replicate n 'x'

theorem length_padding (n : Nat) : (Utf8.encode (padding n)).length = n := by
  induction n with
  | zero => rfl
  | succ n ih =>
    have hcons : padding (n + 1) = 'x' :: padding n := rfl
    rw [hcons, Utf8.encode_cons, List.length_append, ih, Nat.add_comm]
    rfl

theorem atToken_padding (n : Nat) (after : List Char) : AtToken (padding n) after := by
  have hself : ∀ n, Spelling (padding n) (padding n) := by
    intro n
    induction n with
    | zero => exact .nil
    | succ n ih =>
      exact .cons (.literal (c := 'x') (by decide) (by decide) (by decide)) ih
  obtain ⟨ts, hscan⟩ := exists_scan (padding n ++ after)
  obtain ⟨found, after', rfl, -, hused, -⟩ := (hself n).scan hscan
  exact ⟨found, after', hscan, hused⟩

theorem redact_spelling_password :
    (Utf8.encode escapedPassword).length ≤ onePassword.reach ∧
    Hides (Utf8.encode (padding 3 ++ (escapedPassword ++ ['!'])))
      (onePassword.redact tryAll (Utf8.encode (padding 3 ++ (escapedPassword ++ ['!'])))) fun i =>
        (Utf8.encode (padding 3)).length ≤ i ∧
          i < (Utf8.encode (padding 3)).length + (Utf8.encode escapedPassword).length := by
  obtain ⟨hlength, hhides⟩ := redact_spelling (v := ⟨"abcdef".toList, by decide, by decide⟩)
    (s := onePassword) reports_tryAll List.mem_cons_self spelling_escapedPassword
  exact ⟨hlength, hhides (padding 3) ['!'] (atToken_padding _ _) (by decide)⟩

/-- In a text of four gibibytes the escaped value is copied. -/
theorem redact_spelling_large :
    ¬∀ (search : Search) (s : Secrets) (v : SecretValue) (before spelled after : List Char),
      Reports search → v ∈ s.values → Spelling v.text spelled →
      AtToken before (spelled ++ after) →
      Hides (Utf8.encode (before ++ (spelled ++ after)))
        (s.redact search (Utf8.encode (before ++ (spelled ++ after)))) fun i =>
          (Utf8.encode before).length ≤ i ∧
            i < (Utf8.encode before).length + (Utf8.encode spelled).length := by
  intro h
  have hmem : ∀ c ∈ padding (2 ^ 32) ++ (escapedPassword ++ []), c ≠ 'a' ∧ c.toNat ≠ 0x5B := by
    have hescaped : (escapedPassword ++ []).all
        (fun c => decide (c ≠ 'a' ∧ c.toNat ≠ 0x5B)) = true := by decide
    refine List.forall_mem_append.mpr ⟨?_, ?_⟩
    · intro c hc
      obtain rfl := List.eq_of_mem_replicate hc
      decide
    · exact fun c hc => of_decide_eq_true (List.all_eq_true.mp hescaped c hc)
  have hlength : 2 ^ 32 ≤
      (Utf8.encode (padding (2 ^ 32) ++ (escapedPassword ++ []))).length + 1 := by
    rw [Utf8.encode_append, List.length_append, length_padding]
    omega
  have hno : ∀ r, ¬Occurs (onePassword.values.map SecretValue.bytes)
      (Utf8.encode (padding (2 ^ 32) ++ (escapedPassword ++ []))) r := by
    intro r hr
    obtain ⟨v, hv, pre, post, htext, -⟩ := hr.split
    obtain rfl := List.mem_singleton.mp hv
    have ha : 'a' ∈ padding (2 ^ 32) ++ (escapedPassword ++ []) := by
      rw [htext]
      exact List.mem_append_left _ (List.mem_append_right _ (by decide))
    exact (hmem 'a' ha).1 rfl
  obtain ⟨ranges, -, hout, hhidden⟩ := h tryAll onePassword ⟨"abcdef".toList, by decide, by decide⟩
    (padding (2 ^ 32)) escapedPassword [] reports_tryAll List.mem_cons_self
    spelling_escapedPassword (atToken_padding _ _)
  rw [redact_large reports_tryAll hlength hno] at hout
  obtain ⟨hcovered, -⟩ := hhidden (Utf8.encode (padding (2 ^ 32))).length
    ⟨Nat.le_refl _, Nat.lt_add_of_pos_right (by decide)⟩
  -- a placeholder would put a bracket into the text
  obtain ⟨front, back, hreplace⟩ := Ranges.replace_covered redacted
    (Utf8.encode (padding (2 ^ 32) ++ (escapedPassword ++ []))) hcovered (Nat.zero_le _)
  rw [hreplace] at hout
  have hbracket : (0x5B : UInt8) ∈ Utf8.encode (padding (2 ^ 32) ++ (escapedPassword ++ [])) := by
    rw [Option.some.inj hout]
    exact List.mem_append_left _ (List.mem_append_right _ (by decide))
  obtain ⟨c, hc, hcode⟩ := Utf8.mem_encode_ascii (by decide) hbracket
  exact (hmem c hc).2 hcode

end Kyora
