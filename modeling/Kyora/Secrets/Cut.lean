import Kyora.Secrets.Shown

/-! # Scanning a text from inside an escape

  A text that starts inside an escape is scanned like the whole text from the end of
  that escape on, either as it is or with a backslash in front. Of a two-character
  escape, and of any escape without its backslash, the backslash gives the escape
  back; the other parts of a `\uXXXX` are copied character by character, also the
  second half of a surrogate pair, which is no escape of its own.
-/

namespace Kyora

/-! ### The bytes of an escape -/

theorem getElem?_of_getSlice {bytes part : List UInt8} {a b k : Nat}
    (h : getSlice bytes a b = some part) (ha : a ≤ k) (hb : k < b) :
    ∃ byte ∈ part, bytes[k]? = some byte := by
  obtain ⟨-, hlength, rfl⟩ := getSlice_eq h
  have hk : k < bytes.length := by omega
  refine ⟨bytes[k], ?_, List.getElem?_eq_getElem hk⟩
  refine List.mem_iff_getElem.mpr ⟨k - a, ?_, ?_⟩
  · rw [List.length_drop, List.length_take]
    omega
  · rw [List.getElem_drop, List.getElem_take]
    congr 1
    omega

theorem ne_backslash_of_hex4 {digits : List UInt8} {n : Nat} (h : hex4 digits = some n)
    {b : UInt8} (hb : b ∈ digits) : b ≠ 0x5C := by
  rintro rfl
  obtain ⟨d, hd⟩ := hex4_digits h _ hb
  have hnone : hexDigit? 0x5C = none := by decide
  rw [hnone] at hd
  cases hd

/-- Only a backslash starts an escape. -/
theorem unescape_of_head {bytes : List UInt8} (h : bytes[0]? ≠ some 0x5C) :
    unescape bytes = none := by
  unfold unescape
  split
  · exact absurd rfl h
  · rfl

/-- A low surrogate is no escape of its own. -/
theorem unescape_of_low {bytes lows : List UInt8} {low : Nat} (hu : bytes[1]? = some 0x75)
    (hlows : getSlice bytes 2 6 = some lows) (hlow : hex4 lows = some low)
    (hrange : 0xDC00 ≤ low ∧ low ≤ 0xDFFF) : unescape bytes = none := by
  have hunicode : unicode bytes = none := by
    have hhigh : ¬(0xD800 ≤ low ∧ low ≤ 0xDBFF) := by omega
    simp only [unicode, hlows, Option.bind_eq_bind, Option.bind_some, hlow, if_neg hhigh,
      if_pos hrange]
  unfold unescape
  split
  · next b rest =>
    obtain rfl : b = 0x75 := Option.some.inj hu
    rw [if_pos rfl, hunicode]
  · rfl

theorem unescape_cases {bytes : List UInt8} {c : Char} {n : Nat}
    (h : unescape bytes = some (c, n)) : n = 2 ∨ unicode bytes = some (c, n) := by
  unfold unescape at h
  split at h
  · split at h
    · exact .inr h
    · obtain ⟨c', -, heq⟩ := Option.map_eq_some_iff.mp h
      exact .inl (Prod.mk.inj heq).2.symm
  · cases h

/-- From the third byte on, no part of an escape starts an escape. -/
theorem unescape_inside {bytes : List UInt8} {c : Char} {n k : Nat}
    (h : unescape bytes = some (c, n)) (hk : 2 ≤ k) (hn : k < n) :
    unescape (bytes.drop k) = none := by
  have hhead : ∀ {b : UInt8}, bytes[k]? = some b → b ≠ 0x5C → unescape (bytes.drop k) = none := by
    intro b hget hne
    apply unescape_of_head
    rw [List.getElem?_drop, Nat.add_zero, hget]
    exact fun heq => hne (Option.some.inj heq)
  -- A position among four hexadecimal digits.
  have hdigits : ∀ {a : Nat} {digits : List UInt8} {unit : Nat},
      getSlice bytes a (a + 4) = some digits → hex4 digits = some unit → a ≤ k → k < a + 4 →
      unescape (bytes.drop k) = none := by
    intro a digits unit hslice hunit ha hlt
    obtain ⟨b, hb, hget⟩ := getElem?_of_getSlice hslice ha hlt
    exact hhead hget (ne_backslash_of_hex4 hunit hb)
  rcases unescape_cases h with rfl | hunicode
  · omega
  rcases unicode_cases hunicode with ⟨rfl, digits, unit, hfirst, hunit, -⟩ |
    ⟨rfl, -, digits, unit, low, lows, hfirst, hunit, hpair, hlows, hlow, hrange⟩
  · exact hdigits hfirst hunit hk hn
  · by_cases h6 : k < 6
    · exact hdigits hfirst hunit hk h6
    by_cases h8 : 8 ≤ k
    · exact hdigits hlows hlow h8 hn
    -- What is left is the start of the second half.
    have hu : bytes[7]? = some 0x75 := by
      obtain ⟨-, -, hpart⟩ := getSlice_eq hpair
      have hsecond := congrArg (fun part => part[1]?) hpart
      simp only [List.getElem?_drop, List.getElem?_take] at hsecond
      exact hsecond.symm
    by_cases h7 : k = 7
    · subst h7
      exact hhead hu (by decide)
    · obtain rfl : k = 6 := by omega
      obtain ⟨-, hlength, rfl⟩ := getSlice_eq hlows
      refine unescape_of_low ?_ ?_ hlow hrange
      · rw [List.getElem?_drop]
        exact hu
      · have hfits : 2 ≤ 6 ∧ 6 ≤ (bytes.drop 6).length := by
          rw [List.length_drop]
          omega
        unfold getSlice
        rw [if_pos hfits, List.take_drop, List.drop_drop]

/-- The character at a position inside an escape is copied, one byte. -/
theorem nextToken_inside {bytes : List UInt8} {c : Char} {n k : Nat}
    (h : unescape bytes = some (c, n)) (hk : 2 ≤ k) (hn : k < n) :
    ∃ t, nextToken (bytes.drop k) = some t ∧ t.used = 1 := by
  obtain ⟨-, hle, hascii, -⟩ := unescape_ascii h
  have hlt : k < bytes.length := by omega
  have hbyte : bytes[k].toNat < 128 := by
    apply hascii
    exact List.mem_iff_getElem.mpr ⟨k, by rw [List.length_take]; omega, List.getElem_take⟩
  obtain ⟨text, htext⟩ := Utf8.exists_encode_of_ascii (List.forall_mem_singleton.mpr hbyte)
  cases text with
  | nil => cases htext
  | cons first text =>
    have hsize := congrArg List.length htext
    have hpos := first.utf8Size_pos
    rw [Utf8.encode_cons, List.length_append, String.length_utf8EncodeChar,
      List.length_singleton] at hsize
    have hdrop : bytes.drop k =
        String.utf8EncodeChar first ++ (Utf8.encode text ++ bytes.drop (k + 1)) := by
      rw [List.drop_eq_getElem_cons hlt, ← List.append_assoc, ← Utf8.encode_cons, htext]
      rfl
    refine ⟨⟨first, first.utf8Size, false⟩, ?_, by show first.utf8Size = 1; omega⟩
    unfold nextToken
    rw [unescape_inside h hk hn, hdrop, Utf8.decodeChar_encode]
    rfl

/-! ### Scanning -/

/-- The last part of an escape, copied byte by byte. -/
theorem scan_inside {bytes : List UInt8} {c : Char} {n : Nat} {ts : List Token}
    (h : unescape bytes = some (c, n)) (hrest : Scan (bytes.drop n) ts) {j : Nat}
    (hj : j + 2 ≤ n) :
    ∃ ts', Scan (bytes.drop (n - j)) (ts' ++ ts) ∧ usedBy ts' = j := by
  induction j with
  | zero => exact ⟨[], hrest, rfl⟩
  | succ j ih =>
    obtain ⟨ts', hscan, hused⟩ := ih (by omega)
    obtain ⟨t, hnext, ht⟩ := nextToken_inside h (k := n - (j + 1)) (by omega) (by omega)
    refine ⟨t :: ts', .next hnext ?_, by rw [usedBy_cons, ht, hused, Nat.add_comm]⟩
    rw [ht, List.drop_drop]
    have hstart : n - (j + 1) + 1 = n - j := by omega
    rw [hstart]
    exact hscan

/-- The scan of a text whose start is cut off inside an escape meets the scan of the
    whole text at the end of the escape. -/
theorem scan_cut {bytes : List UInt8} {c : Char} {n m : Nat} {ts : List Token}
    (h : unescape bytes = some (c, n)) (hrest : Scan (bytes.drop n) ts) (hpos : 0 < m)
    (hm : m < n) :
    (∃ ts', Scan (bytes.drop m) (ts' ++ ts) ∧ m + usedBy ts' = n) ∨
      ∃ ts', Scan (0x5C :: bytes.drop m) (ts' ++ ts) ∧ m + usedBy ts' = n + 1 := by
  by_cases hone : m = 1
  · right
    subst hone
    have hwhole : 0x5C :: bytes.drop 1 = bytes := by
      unfold unescape at h
      split at h
      · rfl
      · cases h
    refine ⟨[⟨c, n, true⟩], ?_, ?_⟩
    · rw [hwhole]
      exact .next (nextToken_escape h) hrest
    · rw [usedBy_cons, usedBy_nil]
      show 1 + (n + 0) = n + 1
      omega
  · left
    obtain ⟨ts', hscan, hused⟩ := scan_inside h hrest (j := n - m) (by omega)
    have hstart : n - (n - m) = m := by omega
    rw [hstart] at hscan
    exact ⟨ts', hscan, by omega⟩

/-- Where the scan of a text stands between two tokens, so does the scan of the text
    without its start, or of this with a backslash in front. -/
theorem atToken_cut {pre mid after : List Char} (hat : AtToken (pre ++ mid) after) :
    AtToken mid after ∨ AtToken ('\\' :: mid) after := by
  obtain ⟨ts, ts', hscan, hused⟩ := hat
  induction ts generalizing pre with
  | nil =>
    -- no token, so no text in front
    rw [usedBy_nil] at hused
    have hnil := Utf8.encode_eq_nil (List.length_eq_zero_iff.mp hused.symm)
    obtain ⟨rfl, rfl⟩ := List.append_eq_nil_iff.mp hnil
    exact .inl ⟨[], ts', hscan, rfl⟩
  | cons t ts ih =>
    rw [Utf8.encode_append, List.length_append, usedBy_cons] at hused
    rw [List.cons_append] at hscan
    obtain ⟨first, rest, hnext, hpiece, hrest⟩ := Scan.cons_iff.mp hscan
    have hsplit : pre ++ (mid ++ after) = first ++ rest := by
      rw [← List.append_assoc]
      exact hpiece.split
    by_cases hle : t.used ≤ (Utf8.encode pre).length
    · -- the token is cut off with the start
      obtain ⟨pre', rfl, rfl⟩ := Utf8.exists_append_of_le hsplit.symm (hpiece.used ▸ hle)
      rw [Utf8.encode_append, List.length_append, hpiece.used] at hused
      refine @ih pre' ?_ ?_
      · rw [List.append_assoc]
        exact hrest
      · rw [Utf8.encode_append, List.length_append]
        omega
    by_cases hpre : pre = []
    · subst hpre
      refine .inl ⟨t :: ts, ts', hscan, ?_⟩
      rw [usedBy_cons, hused, Utf8.encode_nil, List.length_nil, Nat.zero_add]
    have hpos : 0 < (Utf8.encode pre).length :=
      List.length_pos_iff.mpr fun hnil => hpre (Utf8.encode_eq_nil hnil)
    have hdrop : (Utf8.encode (pre ++ mid ++ after)).drop (Utf8.encode pre).length =
        Utf8.encode (mid ++ after) := by
      rw [List.append_assoc, Utf8.encode_append, List.drop_left]
    cases hescape : unescape (Utf8.encode (pre ++ mid ++ after)) with
    | none =>
      -- a copied character is not cut
      obtain ⟨hsize, more, htext⟩ := nextToken_plain hnext hescape
      obtain ⟨c, pre', rfl⟩ := List.exists_cons_of_ne_nil hpre
      obtain rfl := (List.cons.inj htext).1
      rw [Utf8.encode_cons, List.length_append, String.length_utf8EncodeChar] at hle
      omega
    | some x =>
      obtain ⟨c, n⟩ := x
      obtain rfl := Option.some.inj ((nextToken_escape hescape).symm.trans hnext)
      have hused' : n + usedBy ts = (Utf8.encode pre).length + (Utf8.encode mid).length := hused
      have hlt : (Utf8.encode pre).length < n := Nat.lt_of_not_le hle
      rw [← hpiece.drop] at hrest
      rcases scan_cut hescape hrest hpos hlt with ⟨found, hfound, hlength⟩ |
        ⟨found, hfound, hlength⟩
      · rw [hdrop, ← List.append_assoc] at hfound
        refine .inl ⟨found ++ ts, ts', hfound, ?_⟩
        rw [usedBy_append]
        omega
      · rw [hdrop, ← encode_backslash, ← List.append_assoc] at hfound
        refine .inr ⟨found ++ ts, ts', hfound, ?_⟩
        rw [usedBy_append, encode_backslash, List.length_cons]
        omega

/-! ### Values in a text that is cut -/

section values

variable {s : Secrets} {v : SecretValue} {pre mid spelled after : List Char} {i : Nat}

/-- A value that stands in a text literally is a secret of it. -/
theorem secretByte_literal (hv : v ∈ s.values) (cut : Bool)
    (hle : (Utf8.encode mid).length ≤ i)
    (hlt : i < (Utf8.encode mid).length + (Utf8.encode v.text).length) :
    SecretByte s (Utf8.encode (mid ++ (v.text ++ after))) cut i := by
  rw [← List.append_assoc]
  refine ⟨_, .inl (Occurs.of_split hv mid after), hle, ?_⟩
  rw [Utf8.encode_append, List.length_append]
  exact hlt

/-- So is one that is spelled from a token boundary of the whole text on, when the
    start of the text is cut off before it. -/
theorem secretByte_spelled (hv : v ∈ s.values) (hspelling : Spelling v.text spelled)
    (hat : AtToken (pre ++ mid) (spelled ++ after)) (hle : (Utf8.encode mid).length ≤ i)
    (hlt : i < (Utf8.encode mid).length + (Utf8.encode spelled).length) :
    SecretByte s (Utf8.encode (mid ++ (spelled ++ after))) true i := by
  rcases atToken_cut hat with hat | hat
  · exact ⟨_, .inr (.inl (hspelling.occurs hv hat)), hle, hlt⟩
  · -- found by the second decoding, one byte later
    have hoccurs := hspelling.occurs hv hat
    rw [List.cons_append, encode_backslash, encode_backslash, List.length_cons] at hoccurs
    refine ⟨_, .inr (.inr ⟨rfl, _, hoccurs, rfl⟩), ?_, ?_⟩
    · show (Utf8.encode mid).length + 1 - 1 ≤ i
      omega
    · show i < (Utf8.encode mid).length + 1 + (Utf8.encode spelled).length - 1
      omega

end values

end Kyora
