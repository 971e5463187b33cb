import Kyora.Secrets.Basic

/-! # The escape scan

  Decoding reads a text as tokens: escapes and copied characters. Every token is
  a piece of the text between two character boundaries and has at most six bytes
  for each byte it is decoded to. The origin of a decoded byte at a token's start
  is where the token starts in the text.
-/

namespace Kyora

/-! ### Escapes -/

theorem hexDigit?_ascii {b : UInt8} {d : Nat} (h : hexDigit? b = some d) : b.toNat < 128 := by
  unfold hexDigit? at h
  split at h
  · omega
  · split at h
    · omega
    · split at h
      · omega
      · cases h

theorem hex4_digits {digits : List UInt8} {n : Nat} (h : hex4 digits = some n) :
    ∀ b ∈ digits, ∃ d, hexDigit? b = some d := by
  obtain ⟨values, hvalues, -⟩ := Option.map_eq_some_iff.mp h
  clear h
  induction digits generalizing values with
  | nil => exact fun b hb => absurd hb List.not_mem_nil
  | cons b digits ih =>
    rw [List.mapM_cons] at hvalues
    obtain ⟨d, hd, hrest⟩ := Option.bind_eq_some_iff.mp hvalues
    obtain ⟨ds, hds, -⟩ := Option.bind_eq_some_iff.mp hrest
    exact List.forall_mem_cons.mpr ⟨⟨d, hd⟩, ih ds hds⟩

/-- Hexadecimal digits are ASCII. -/
theorem hex4_ascii {digits : List UInt8} {n : Nat} (h : hex4 digits = some n) :
    ∀ b ∈ digits, b.toNat < 128 := by
  intro b hb
  obtain ⟨d, hd⟩ := hex4_digits h b hb
  exact hexDigit?_ascii hd

theorem getSlice_eq {bytes part : List UInt8} {a b : Nat} (h : getSlice bytes a b = some part) :
    a ≤ b ∧ b ≤ bytes.length ∧ part = (bytes.take b).drop a := by
  unfold getSlice at h
  split at h
  · next hle => exact ⟨hle.1, hle.2, (Option.some.inj h).symm⟩
  · cases h

theorem charFromU32_toNat {n : Nat} {c : Char} (h : charFromU32 n = some c) : c.toNat = n := by
  unfold charFromU32 at h
  split at h
  · next hvalid =>
    obtain rfl := Option.some.inj h
    rw [Char.ofNat, dif_pos hvalid]
    rfl
  · cases h

theorem two_le_utf8Size {c : Char} (h : 0x80 ≤ c.toNat) : 2 ≤ c.utf8Size := by
  by_contra hlt
  have hone : c.utf8Size = 1 := by
    have := c.utf8Size_pos
    omega
  have hle : c.val ≤ 0x7f := Char.utf8Size_eq_one_iff.mp hone
  have hle' : c.val.toNat ≤ 127 := UInt32.le_iff_toNat_le.mp hle
  have hval : c.toNat = c.val.toNat := rfl
  omega

/-- What a `\uXXXX` escape is read from. -/
theorem unicode_cases {bytes : List UInt8} {c : Char} {n : Nat} (h : unicode bytes = some (c, n)) :
    (n = 6 ∧ ∃ digits unit, getSlice bytes 2 6 = some digits ∧ hex4 digits = some unit ∧
      c.toNat = unit) ∨
    (n = 12 ∧ 0x10000 ≤ c.toNat ∧ ∃ digits unit low lows, getSlice bytes 2 6 = some digits ∧
      hex4 digits = some unit ∧ getSlice bytes 6 8 = some [0x5C, 0x75] ∧
      getSlice bytes 8 12 = some lows ∧ hex4 lows = some low ∧ 0xDC00 ≤ low ∧ low ≤ 0xDFFF) := by
  unfold unicode at h
  obtain ⟨digits, hdigits, h⟩ := Option.bind_eq_some_iff.mp h
  obtain ⟨unit, hunit, h⟩ := Option.bind_eq_some_iff.mp h
  split at h
  · next hhigh =>
    obtain ⟨pair, hpair, h⟩ := Option.bind_eq_some_iff.mp h
    split at h
    · cases h
    · next heq =>
      obtain ⟨lows, hlows, h⟩ := Option.bind_eq_some_iff.mp h
      obtain ⟨low, hlow, h⟩ := Option.bind_eq_some_iff.mp h
      split at h
      · next hrange =>
        obtain ⟨c', hc, h⟩ := Option.bind_eq_some_iff.mp h
        obtain ⟨rfl, rfl⟩ := Prod.mk.inj (Option.some.inj h)
        rw [not_not.mp heq] at hpair
        refine Or.inr ⟨rfl, ?_, digits, unit, low, lows, hdigits, hunit, hpair, hlows, hlow, hrange⟩
        rw [charFromU32_toNat hc]
        omega
      · cases h
  · split at h
    · cases h
    · obtain ⟨c', hc, h⟩ := Option.bind_eq_some_iff.mp h
      obtain ⟨rfl, rfl⟩ := Prod.mk.inj (Option.some.inj h)
      exact Or.inl ⟨rfl, digits, unit, hdigits, hunit, charFromU32_toNat hc⟩

theorem simpleEscape_ascii {b : UInt8} {c : Char} (h : simpleEscape b = some c) :
    b.toNat < 128 := by
  by_contra hlt
  have hne : ∀ k : UInt8, k.toNat < 128 → b ≠ k := by
    rintro k hk rfl
    exact hlt hk
  rw [simpleEscape, if_neg (hne _ (by decide)), if_neg (hne _ (by decide)),
    if_neg (hne _ (by decide)), if_neg (hne _ (by decide)), if_neg (hne _ (by decide)),
    if_neg (hne _ (by decide)), if_neg (hne _ (by decide)), if_neg (hne _ (by decide))] at h
  cases h

theorem take_eq_append {α : Type} (xs : List α) {a b : Nat} (h : a ≤ b) :
    xs.take b = xs.take a ++ (xs.take b).drop a := by
  have hsplit := List.take_append_drop a (xs.take b)
  rw [List.take_take, Nat.min_eq_left h] at hsplit
  exact hsplit.symm

/-- An escape is a piece of ASCII, at most six bytes for each byte it stands for. -/
theorem unescape_ascii {bytes : List UInt8} {c : Char} {n : Nat}
    (h : unescape bytes = some (c, n)) :
    0 < n ∧ n ≤ bytes.length ∧ (∀ b ∈ bytes.take n, b.toNat < 128) ∧
      n ≤ Secrets.escapeGrowth * c.utf8Size := by
  have hpos := c.utf8Size_pos
  unfold unescape at h
  split at h
  · next b rest =>
    have hstart : ∀ b' ∈ ([0x5C, 0x75] : List UInt8), b'.toNat < 128 :=
      List.forall_mem_cons.mpr ⟨by decide, List.forall_mem_singleton.mpr (by decide)⟩
    split at h
    · next hb =>
      subst hb
      have htwo : (0x5C :: 0x75 :: rest).take 2 = ([0x5C, 0x75] : List UInt8) := rfl
      rcases unicode_cases h with ⟨rfl, digits, unit, hdigits, hunit, -⟩ |
        ⟨rfl, hwide, digits, unit, low, lows, hdigits, hunit, hpair, hlows, hlow, -⟩
      · obtain ⟨-, hlength, hpart⟩ := getSlice_eq hdigits
        refine ⟨by omega, hlength, ?_, by rw [Secrets.escapeGrowth]; omega⟩
        rw [take_eq_append _ (show 2 ≤ 6 by omega), ← hpart, htwo]
        exact List.forall_mem_append.mpr ⟨hstart, hex4_ascii hunit⟩
      · obtain ⟨-, hlength, hlast⟩ := getSlice_eq hlows
        obtain ⟨-, -, hmiddle⟩ := getSlice_eq hpair
        obtain ⟨-, -, hpart⟩ := getSlice_eq hdigits
        have hsize := two_le_utf8Size (show 0x80 ≤ c.toNat by omega)
        refine ⟨by omega, hlength, ?_, by rw [Secrets.escapeGrowth]; omega⟩
        rw [take_eq_append _ (show 8 ≤ 12 by omega), ← hlast,
          take_eq_append _ (show 6 ≤ 8 by omega), ← hmiddle,
          take_eq_append _ (show 2 ≤ 6 by omega), ← hpart, htwo]
        exact List.forall_mem_append.mpr ⟨List.forall_mem_append.mpr
          ⟨List.forall_mem_append.mpr ⟨hstart, hex4_ascii hunit⟩, hstart⟩, hex4_ascii hlow⟩
    · obtain ⟨c', hc, heq⟩ := Option.map_eq_some_iff.mp h
      obtain ⟨rfl, rfl⟩ := Prod.mk.inj heq
      have hb : b.toNat < 128 := simpleEscape_ascii hc
      refine ⟨by omega, by simp, ?_, by rw [Secrets.escapeGrowth]; omega⟩
      show ∀ b' ∈ [0x5C, b], b'.toNat < 128
      simp [hb]
  · cases h

/-! ### Tokens -/

/-- The tokens of a text, one after the other. -/
inductive Scan : List UInt8 → List Token → Prop where
  | done : Scan [] []
  | next {bytes : List UInt8} {t : Token} {ts : List Token} (h : nextToken bytes = some t)
    (rest : Scan (bytes.drop t.used) ts) : Scan bytes (t :: ts)

theorem nextToken_nil : nextToken [] = none := by
  have hescape : unescape [] = none := rfl
  rw [nextToken, hescape]
  cases hchar : Utf8.decodeChar [] with
  | none => rfl
  | some x =>
    have hnil := (List.append_eq_nil_iff.mp (Utf8.decodeChar_some hchar).symm).1
    exact absurd hnil (Utf8.encodeChar_ne_nil x.1)

theorem Scan.cons_inv {bytes : List UInt8} {t : Token} {ts : List Token}
    (h : Scan bytes (t :: ts)) : nextToken bytes = some t ∧ Scan (bytes.drop t.used) ts := by
  cases h with
  | next hnext hrest => exact ⟨hnext, hrest⟩

/-- The bytes that some tokens were read from. -/
def usedBy (ts : List Token) : Nat := (ts.map Token.used).sum

/-- What some tokens are decoded to. -/
def decodedBy (ts : List Token) : List Char := ts.map Token.char

@[simp] theorem usedBy_nil : usedBy [] = 0 := rfl

@[simp] theorem usedBy_cons (t : Token) (ts : List Token) :
    usedBy (t :: ts) = t.used + usedBy ts := rfl

@[simp] theorem usedBy_append (ts ts' : List Token) :
    usedBy (ts ++ ts') = usedBy ts + usedBy ts' := by
  simp [usedBy]

@[simp] theorem decodedBy_cons (t : Token) (ts : List Token) :
    decodedBy (t :: ts) = t.char :: decodedBy ts := rfl

@[simp] theorem decodedBy_append (ts ts' : List Token) :
    decodedBy (ts ++ ts') = decodedBy ts ++ decodedBy ts' := List.map_append

/-- A token is a piece of its text. -/
structure Piece (text : List Char) (t : Token) (before after : List Char) : Prop where
  split : text = before ++ after
  nonempty : before ≠ []
  used : (Utf8.encode before).length = t.used
  growth : t.used ≤ Secrets.escapeGrowth * t.char.utf8Size

theorem Piece.drop {text before after : List Char} {t : Token} (h : Piece text t before after) :
    (Utf8.encode text).drop t.used = Utf8.encode after := by
  rw [h.split, Utf8.encode_append, ← h.used, List.drop_left]

theorem Piece.used_pos {text before after : List Char} {t : Token}
    (h : Piece text t before after) : 0 < t.used := by
  rw [← h.used]
  exact List.length_pos_iff.mpr fun hnil => h.nonempty (Utf8.encode_eq_nil hnil)

theorem Piece.length_lt {text before after : List Char} {t : Token}
    (h : Piece text t before after) : after.length < text.length := by
  have hpos := List.length_pos_iff.mpr h.nonempty
  rw [h.split, List.length_append]
  omega

/-- Every text has a next token, unless it is empty. -/
theorem exists_nextToken {text : List Char} (hne : text ≠ []) :
    ∃ t before after, nextToken (Utf8.encode text) = some t ∧ Piece text t before after := by
  unfold nextToken
  cases hescape : unescape (Utf8.encode text) with
  | some x =>
    obtain ⟨c, n⟩ := x
    obtain ⟨hpos, hle, hascii, hgrowth⟩ := unescape_ascii hescape
    obtain ⟨before, hbefore⟩ := Utf8.exists_encode_of_ascii hascii
    have hlength : (Utf8.encode before).length = n := by
      rw [hbefore, List.length_take, Nat.min_eq_left hle]
    obtain ⟨after, hafter⟩ := Utf8.isPrefix_of_encode (hbefore ▸ List.take_prefix n _)
    refine ⟨⟨c, n, true⟩, before, after, rfl, hafter.symm, ?_, hlength, hgrowth⟩
    rintro rfl
    simp only [Utf8.encode_nil, List.length_nil] at hlength
    omega
  | none =>
    obtain ⟨c, rest, rfl⟩ := List.exists_cons_of_ne_nil hne
    refine ⟨⟨c, c.utf8Size, false⟩, [c], rest, ?_, rfl, List.cons_ne_nil c [], ?_, ?_⟩
    · simp only [Utf8.encode_cons, Utf8.decodeChar_encode, Option.map_some]
    · simp
    · show c.utf8Size ≤ Secrets.escapeGrowth * c.utf8Size
      rw [Secrets.escapeGrowth]
      omega

/-- A scanned text is taken apart token by token. -/
theorem Scan.cons_iff {text : List Char} {t : Token} {ts : List Token} :
    Scan (Utf8.encode text) (t :: ts) ↔
      ∃ before after, nextToken (Utf8.encode text) = some t ∧ Piece text t before after ∧
        Scan (Utf8.encode after) ts := by
  constructor
  · intro h
    obtain ⟨hnext, hrest⟩ := h.cons_inv
    have hne : text ≠ [] := by
      rintro rfl
      rw [Utf8.encode_nil, nextToken_nil] at hnext
      cases hnext
    obtain ⟨t', before, after, hnext', hpiece⟩ := exists_nextToken hne
    obtain rfl := Option.some.inj (hnext.symm.trans hnext')
    exact ⟨before, after, hnext, hpiece, hpiece.drop ▸ hrest⟩
  · rintro ⟨before, after, hnext, hpiece, hrest⟩
    exact .next hnext (hpiece.drop ▸ hrest)

theorem Scan.nil_iff {text : List Char} : Scan (Utf8.encode text) [] ↔ text = [] := by
  constructor
  · intro h
    generalize hbytes : Utf8.encode text = bytes at h
    cases h with
    | done => exact Utf8.encode_eq_nil hbytes
  · rintro rfl
    exact .done

/-- Every text is scanned. -/
theorem exists_scan (text : List Char) : ∃ ts, Scan (Utf8.encode text) ts := by
  induction hlength : text.length using Nat.strongRecOn generalizing text with
  | ind n ih =>
    by_cases hne : text = []
    · exact ⟨[], Scan.nil_iff.mpr hne⟩
    · obtain ⟨t, before, after, hnext, hpiece⟩ := exists_nextToken hne
      obtain ⟨ts, hts⟩ := ih after.length (hlength ▸ hpiece.length_lt) after rfl
      exact ⟨t :: ts, Scan.cons_iff.mpr ⟨before, after, hnext, hpiece, hts⟩⟩

theorem Scan.unique {bytes : List UInt8} {ts ts' : List Token} (h : Scan bytes ts)
    (h' : Scan bytes ts') : ts = ts' := by
  induction h generalizing ts' with
  | done =>
    cases h' with
    | done => rfl
    | next hnext => rw [nextToken_nil] at hnext; cases hnext
  | next hnext hrest ih =>
    cases h' with
    | done => rw [nextToken_nil] at hnext; cases hnext
    | next hnext' hrest' =>
      obtain rfl := Option.some.inj (hnext.symm.trans hnext')
      rw [ih hrest']

/-- Tokens in front are read from a text in front. -/
theorem Scan.split {text : List Char} {ts ts' : List Token}
    (h : Scan (Utf8.encode text) (ts ++ ts')) :
    ∃ before after, text = before ++ after ∧ (Utf8.encode before).length = usedBy ts ∧
      Scan (Utf8.encode after) ts' := by
  induction ts generalizing text with
  | nil => exact ⟨[], text, rfl, rfl, h⟩
  | cons t ts ih =>
    obtain ⟨first, rest, -, hpiece, hscan⟩ := Scan.cons_iff.mp h
    obtain ⟨before, after, rfl, hused, hafter⟩ := ih hscan
    refine ⟨first ++ before, after, ?_, ?_, hafter⟩
    · rw [hpiece.split, List.append_assoc]
    · rw [Utf8.encode_append, List.length_append, hpiece.used, hused, usedBy_cons]

theorem Scan.usedBy_eq {text : List Char} {ts : List Token} (h : Scan (Utf8.encode text) ts) :
    usedBy ts = (Utf8.encode text).length := by
  obtain ⟨before, after, rfl, hused, hafter⟩ := Scan.split (List.append_nil ts ▸ h)
  obtain rfl := Scan.nil_iff.mp hafter
  rw [List.append_nil, hused]

theorem length_encode_decodedBy (t : Token) (ts : List Token) :
    (Utf8.encode (decodedBy (t :: ts))).length =
      t.char.utf8Size + (Utf8.encode (decodedBy ts)).length := by
  rw [decodedBy_cons, Utf8.encode_cons, List.length_append, String.length_utf8EncodeChar]

/-- Tokens have at most six bytes for each byte they are decoded to. -/
theorem Scan.growth {text : List Char} {ts ts' : List Token}
    (h : Scan (Utf8.encode text) (ts ++ ts')) :
    usedBy ts ≤ Secrets.escapeGrowth * (Utf8.encode (decodedBy ts)).length := by
  induction ts generalizing text with
  | nil => exact Nat.zero_le _
  | cons t ts ih =>
    obtain ⟨before, after, -, hpiece, hrest⟩ := Scan.cons_iff.mp h
    have hlater := ih hrest
    have hfirst := hpiece.growth
    rw [usedBy_cons, length_encode_decodedBy, Nat.mul_add]
    omega

/-- Every token has a byte. -/
theorem Scan.usedBy_pos {text : List Char} {ts ts' ts'' : List Token}
    (h : Scan (Utf8.encode text) (ts ++ ts' ++ ts'')) : ts'.length ≤ usedBy ts' := by
  rw [List.append_assoc] at h
  obtain ⟨-, after, -, -, hafter⟩ := h.split
  clear h
  induction ts' generalizing after with
  | nil => exact Nat.zero_le _
  | cons t ts' ih =>
    obtain ⟨before, rest, -, hpiece, hrest⟩ := Scan.cons_iff.mp hafter
    have hlater := ih rest hrest
    have hpos := hpiece.used_pos
    rw [usedBy_cons, List.length_cons]
    omega

/-! ### The decoded text -/

/-- The origins of tokens that start at a position, and the end. -/
def originsOf : Nat → List Token → List Nat
  | at_, [] => [at_]
  | at_, t :: ts => Decoded.origins at_ t ++ originsOf (at_ + t.used) ts

/-- The loop decodes the tokens of the text. -/
theorem decodeLoop_eq {text : List Char} {ts : List Token} (h : Scan (Utf8.encode text) ts)
    {fuel : Nat} (hfuel : (Utf8.encode text).length ≤ fuel) (at_ : Nat) (view : Decoded) :
    Decoded.decodeLoop fuel at_ (Utf8.encode text) view =
      some ⟨view.text ++ Utf8.encode (decodedBy ts), view.origin ++ originsOf at_ ts⟩ := by
  induction ts generalizing text fuel at_ view with
  | nil =>
    obtain rfl := Scan.nil_iff.mp h
    cases fuel <;> simp [Decoded.decodeLoop, decodedBy, originsOf]
  | cons t ts ih =>
    obtain ⟨before, after, hnext, hpiece, hrest⟩ := Scan.cons_iff.mp h
    have hpos := hpiece.used_pos
    have hlength : (Utf8.encode after).length + t.used = (Utf8.encode text).length := by
      rw [hpiece.split, Utf8.encode_append, List.length_append, hpiece.used, Nat.add_comm]
    obtain ⟨fuel, rfl⟩ : ∃ k, fuel = k + 1 := ⟨fuel - 1, by omega⟩
    have hstep : Decoded.decodeLoop (fuel + 1) at_ (Utf8.encode text) view =
        (nextToken (Utf8.encode text)).bind fun t =>
          Decoded.decodeLoop fuel (at_ + t.used) ((Utf8.encode text).drop t.used)
            ⟨view.text ++ String.utf8EncodeChar t.char, view.origin ++ Decoded.origins at_ t⟩ := by
      cases hbytes : Utf8.encode text with
      | nil =>
        rw [hbytes, List.length_nil] at hlength
        omega
      | cons b bytes => rfl
    rw [hstep, hnext, Option.bind_some, hpiece.drop, ih hrest (by omega)]
    simp [originsOf]

/-- The decoded position of a token's start comes from the token's start. -/
theorem getElem?_originsOf (ts ts' : List Token) (at_ : Nat) :
    (originsOf at_ (ts ++ ts'))[(Utf8.encode (decodedBy ts)).length]? =
      some (at_ + usedBy ts) := by
  induction ts generalizing at_ with
  | nil =>
    cases ts' with
    | nil => rfl
    | cons t ts' =>
      obtain ⟨n, hn⟩ : ∃ n, t.char.utf8Size = n + 1 :=
        ⟨t.char.utf8Size - 1, by have := t.char.utf8Size_pos; omega⟩
      show (Decoded.origins at_ t ++ originsOf (at_ + t.used) ts')[0]? = some at_
      rw [Decoded.origins, hn, List.range_succ_eq_map]
      simp
  | cons t ts ih =>
    have hlength : (Decoded.origins at_ t).length = t.char.utf8Size := by
      rw [Decoded.origins, List.length_map, List.length_range]
    rw [length_encode_decodedBy, List.cons_append, originsOf,
      List.getElem?_append_right (by omega), hlength, Nat.add_sub_cancel_left, ih, usedBy_cons,
      Nat.add_assoc]

end Kyora
