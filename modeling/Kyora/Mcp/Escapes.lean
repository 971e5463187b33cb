import Kyora.Mcp.Credentials

/-! # Escapes in query keys

  The digit parser of the code takes a sign for a digit, so `%+A` is one byte
  for it and three for a server. Every other key is decoded as a server decodes
  it, and from the first such escape on the two names differ.
-/

namespace Kyora.Mcp

open Utf8

/-! ### Digits -/

theorem hexValue?_lt {c : Char} {n : Nat} (h : hexValue? c = some n) : n < 16 := by
  unfold hexValue? at h
  split_ifs at h with hdigit hlower hupper
  · have hle : c.toNat ≤ 57 := (Bool.and_eq_true _ _ ▸ hdigit).2 |> of_decide_eq_true
    have := Option.some.inj h
    omega
  · have hle : c.toNat ≤ 102 := hlower.2
    have := Option.some.inj h
    omega
  · have hle : c.toNat ≤ 70 := hupper.2
    have := Option.some.inj h
    omega

theorem hexValue?_ascii {c : Char} (h : (hexValue? c).isSome = true) : c.toNat < 128 := by
  unfold hexValue? at h
  split_ifs at h with hdigit hlower hupper
  · have hle : c.toNat ≤ 57 := (Bool.and_eq_true _ _ ▸ hdigit).2 |> of_decide_eq_true
    omega
  · have hle : c.toNat ≤ 102 := hlower.2
    omega
  · have hle : c.toNat ≤ 70 := hupper.2
    omega
  · cases h

theorem toNat_ofNat_byte (b : UInt8) : (Char.ofNat b.toNat).toNat = b.toNat := by
  have hb := b.toNat_lt
  rw [Char.ofNat, dif_pos (Or.inl (by omega))]
  rfl

theorem digit?_ascii {b : UInt8} (h : (digit? b).isSome = true) : b.toNat < 128 := by
  have hc := hexValue?_ascii h
  rwa [toNat_ofNat_byte] at hc

theorem digit?_ne_percent {b : UInt8} (h : (digit? b).isSome = true) : b ≠ 37 := by
  rintro rfl
  cases h

theorem digit?_ne_plus {b : UInt8} (h : (digit? b).isSome = true) : b ≠ 43 := by
  rintro rfl
  cases h

/-! ### What the parser reads -/

/-- One ASCII byte is one character. -/
theorem encode_ascii {b : UInt8} (hb : b.toNat < 128) :
    String.utf8EncodeChar (Char.ofNat b.toNat) = [b] := by
  obtain ⟨first, others, hshape⟩ := exists_shape (Char.ofNat b.toNat)
  have hcode := toNat_ofNat_byte b
  obtain ⟨hfirst, rfl⟩ := hshape.ascii (by omega)
  rw [hshape.eq, UInt8.toNat_inj.mp (hfirst.trans hcode)]

theorem dropPlus_of_ne {c : Char} (h : c ≠ '+') (rest : List Char) :
    dropPlus (c :: rest) = c :: rest := by
  unfold dropPlus
  split
  · next heq =>
    obtain ⟨rfl, -⟩ := List.cons.inj heq
    exact absurd rfl h
  · rfl

theorem mem_dropPlus {text : List Char} {c : Char} (hmem : c ∈ text) (hsign : c ≠ '+') :
    c ∈ dropPlus text := by
  cases text with
  | nil => cases hmem
  | cons d rest =>
    by_cases hd : d = '+'
    · obtain rfl := hd
      exact (List.mem_cons.mp hmem).resolve_left hsign
    · rw [dropPlus_of_ne hd]
      exact hmem

/-- A character that is no digit fails the parse, a leading sign apart. -/
theorem fromStrRadix_none {text : List Char} {c : Char} (hmem : c ∈ dropPlus text)
    (hc : hexValue? c = none) : fromStrRadix text = none := by
  have hfold : ∀ (digits : List Char) (n : Nat), c ∈ digits →
      digits.foldlM digitStep n = none := by
    intro digits
    induction digits with
    | nil =>
      intro n h
      cases h
    | cons d digits ih =>
      intro n h
      rw [List.foldlM_cons]
      rcases List.mem_cons.mp h with rfl | h
      · rw [digitStep, hc]
        rfl
      · cases digitStep n d with
        | none => rfl
        | some m => exact ih m h
  rw [fromStrRadix, hfold _ 0 hmem, Option.map_none, ite_self]

theorem digitStep_some {n : Nat} {c : Char} {d : Nat} (hc : hexValue? c = some d)
    (hlt : 16 * n + d < 256) : digitStep n c = some (16 * n + d) := by
  rw [digitStep, hc, Option.bind_some, if_pos hlt]

theorem ne_plus_of_hexValue? {c : Char} {d : Nat} (h : hexValue? c = some d) : c ≠ '+' := by
  rintro rfl
  cases h

/-- Two digits are one number. -/
theorem fromStrRadix_pair {c d : Char} {high low : Nat} (hc : hexValue? c = some high)
    (hd : hexValue? d = some low) : fromStrRadix [c, d] = some (UInt8.ofNat (16 * high + low)) := by
  have hhigh := hexValue?_lt hc
  have hlow := hexValue?_lt hd
  rw [fromStrRadix, dropPlus_of_ne (ne_plus_of_hexValue? hc), if_neg (by simp), List.foldlM_cons,
    digitStep_some hc (by omega), Option.bind_eq_bind, Option.bind_some, List.foldlM_cons,
    digitStep_some hd (by omega)]
  simp

/-- A sign and a digit are a number as well. -/
theorem fromStrRadix_signed {d : Char} {low : Nat} (hd : hexValue? d = some low) :
    fromStrRadix ['+', d] = some (UInt8.ofNat low) := by
  have hlow := hexValue?_lt hd
  change (if [d].isEmpty then none else ([d].foldlM digitStep 0).map UInt8.ofNat) = _
  rw [if_neg (by simp), List.foldlM_cons, digitStep_some hd (by omega)]
  simp

/-- A byte above ASCII is part of a character above ASCII. -/
theorem exists_wide {text : List Char} {b : UInt8} (hb : 128 ≤ b.toNat) (h : b ∈ encode text) :
    ∃ c ∈ text, 128 ≤ c.toNat := by
  obtain ⟨c, hc, hmem⟩ := List.mem_flatMap.mp h
  obtain ⟨first, others, hshape⟩ := exists_shape c
  refine ⟨c, hc, ?_⟩
  by_contra hlt
  obtain ⟨hfirst, rfl⟩ := hshape.ascii (by omega)
  rw [hshape.eq] at hmem
  obtain rfl := List.mem_singleton.mp hmem
  omega

/-- Nothing above ASCII is read as a number. -/
theorem escape_wide {x y : UInt8} (h : 128 ≤ x.toNat ∨ 128 ≤ y.toNat) :
    (decode [x, y]).bind fromStrRadix = none := by
  cases htext : decode [x, y] with
  | none => rfl
  | some text =>
    have hbytes := decode_eq_some_iff.mp htext
    obtain ⟨c, hc, hwide⟩ : ∃ c ∈ text, 128 ≤ c.toNat := by
      rcases h with h | h
      · exact exists_wide h (hbytes ▸ List.mem_cons_self)
      · exact exists_wide h (hbytes ▸ List.mem_cons_of_mem _ List.mem_cons_self)
    have hsign : c ≠ '+' := by
      rintro rfl
      exact absurd hwide (by decide)
    refine fromStrRadix_none (mem_dropPlus hc hsign) ?_
    cases hvalue : hexValue? c with
    | none => rfl
    | some d =>
      have := hexValue?_ascii (by rw [hvalue]; rfl)
      omega

theorem digit?_wide {b : UInt8} (h : 128 ≤ b.toNat) : digit? b = none := by
  cases hb : digit? b with
  | none => rfl
  | some d =>
    have := digit?_ascii (by rw [hb]; rfl)
    omega

/-- What the two bytes after a percent sign are read as: two digits, but also a
    sign and a digit. -/
theorem escape?_pair (x y : UInt8) (rest : List UInt8) : escape? (x :: y :: rest) =
    match digit? x, digit? y with
    | some high, some low => some (UInt8.ofNat (16 * high + low))
    | none, some low => if x = 43 then some (UInt8.ofNat low) else none
    | _, none => none := by
  have hlen : 2 ≤ (x :: y :: rest).length := by simp
  rw [escape?, if_pos hlen, List.take_succ_cons, List.take_succ_cons, List.take_zero]
  by_cases hascii : x.toNat < 128 ∧ y.toNat < 128
  · have htext : decode [x, y] = some [Char.ofNat x.toNat, Char.ofNat y.toNat] := by
      rw [decode_eq_some_iff, encode_cons, encode_cons, encode_ascii hascii.1,
        encode_ascii hascii.2]
      rfl
    rw [htext, Option.bind_some]
    cases hy : digit? y with
    | none =>
      have hlast : Char.ofNat y.toNat ∈ dropPlus [Char.ofNat x.toNat, Char.ofNat y.toNat] := by
        by_cases hx : Char.ofNat x.toNat = '+'
        · rw [hx]
          exact List.mem_cons_self
        · rw [dropPlus_of_ne hx]
          exact List.mem_cons_of_mem _ List.mem_cons_self
      rw [fromStrRadix_none hlast hy]
      cases digit? x <;> rfl
    | some low =>
      cases hx : digit? x with
      | some high => exact fromStrRadix_pair hx hy
      | none =>
        by_cases hsign : x = 43
        · obtain rfl := hsign
          exact fromStrRadix_signed hy
        · have hchar : Char.ofNat x.toNat ≠ '+' := by
            intro heq
            have hcode := congrArg Char.toNat heq
            rw [toNat_ofNat_byte] at hcode
            exact hsign (UInt8.toNat_inj.mp hcode)
          simp only [if_neg hsign]
          exact fromStrRadix_none (mem_dropPlus List.mem_cons_self hchar) hx
  · have hwide : 128 ≤ x.toNat ∨ 128 ≤ y.toNat := by omega
    rw [escape_wide hwide]
    rcases hwide with hx | hy
    · rw [digit?_wide hx]
      have hsign : x ≠ 43 := by
        rintro rfl
        exact absurd hx (by decide)
      cases digit? y with
      | none => rfl
      | some low => exact (if_neg hsign).symm
    · rw [digit?_wide hy]
      cases digit? x <;> rfl

/-- Fewer than two bytes are no escape. -/
theorem escape?_short {rest : List UInt8} (h : rest.length < 2) : escape? rest = none :=
  if_neg (by omega)

/-! ### The two decodings side by side -/

theorem signedEscape_cons {byte : UInt8} {rest : List UInt8} : SignedEscape (byte :: rest) ↔
    (∃ d tail, (digit? d).isSome = true ∧ byte = 37 ∧ rest = 43 :: d :: tail) ∨
      SignedEscape rest := by
  constructor
  · rintro ⟨d, hd, hinfix⟩
    rcases List.infix_cons_iff.mp hinfix with ⟨tail, htail⟩ | hinfix
    · obtain ⟨rfl, rfl⟩ := List.cons.inj htail
      exact .inl ⟨d, tail, hd, rfl, rfl⟩
    · exact .inr ⟨d, hd, hinfix⟩
  · rintro (⟨d, tail, hd, rfl, rfl⟩ | ⟨d, hd, hinfix⟩)
    · exact ⟨d, hd, [], tail, rfl⟩
    · exact ⟨d, hd, List.infix_cons_iff.mpr (.inr hinfix)⟩

/-- A round in which both decodings put out the same byte and go on at the same
    place. -/
structure Agree (byte : UInt8) (rest tail : List UInt8) (out : UInt8) : Prop where
  shorter : tail.length ≤ rest.length
  code : ∀ fuel, percentLoop (fuel + 1) (byte :: rest) = out :: percentLoop fuel tail
  standard : formDecode (byte :: rest) = out :: formDecode tail
  signed : SignedEscape (byte :: rest) ↔ SignedEscape tail

/-- A round in which a sign is taken for a digit. -/
structure Differ (byte : UInt8) (rest : List UInt8) (out : UInt8) : Prop where
  small : out.toNat < 16
  code : ∀ fuel, ∃ r, percentLoop (fuel + 1) (byte :: rest) = out :: r
  standard : ∃ r, formDecode (byte :: rest) = 37 :: r
  signed : SignedEscape (byte :: rest)

/-- A byte that is no percent sign is copied, a plus sign apart. -/
theorem agree_of_ne {byte : UInt8} (h : byte ≠ 37) (rest : List UInt8) :
    Agree byte rest rest (plain byte) := by
  refine ⟨Nat.le_refl _, ?_, ?_, ?_⟩
  · intro fuel
    rw [percentLoop, if_neg h, plain]
    split <;> rfl
  · match rest with
    | [] | [_] => rfl
    | _ :: _ :: _ => rw [formDecode, if_neg h]
  · rw [signedEscape_cons]
    constructor
    · rintro (⟨_, _, -, hbyte, -⟩ | hrest)
      · exact absurd hbyte h
      · exact hrest
    · exact .inr

/-- A percent sign that begins no escape is copied as well. -/
theorem agree_of_none {rest : List UInt8} (h : escape? rest = none) : Agree 37 rest rest 37 := by
  refine ⟨Nat.le_refl _, ?_, ?_, ?_⟩
  · intro fuel
    rw [percentLoop, if_pos rfl, h]
  · match rest, h with
    | [], _ | [_], _ => rfl
    | x :: y :: tail, h =>
      rw [escape?_pair] at h
      rw [formDecode, if_pos rfl]
      cases hx : digit? x with
      | none => rfl
      | some high =>
        cases hy : digit? y with
        | none => rfl
        | some low =>
          rw [hx, hy] at h
          cases h
  · rw [signedEscape_cons]
    constructor
    · rintro (⟨d, tail, hd, -, rfl⟩ | hrest)
      · obtain ⟨low, hlow⟩ := Option.isSome_iff_exists.mp hd
        rw [escape?_pair, hlow] at h
        cases h
      · exact hrest
    · exact .inr

/-- One round of the two decodings. -/
theorem round (byte : UInt8) (rest : List UInt8) :
    (∃ tail out, Agree byte rest tail out) ∨ ∃ out, Differ byte rest out := by
  by_cases hbyte : byte = 37
  · obtain rfl := hbyte
    cases hescape : escape? rest with
    | none => exact .inl ⟨rest, 37, agree_of_none hescape⟩
    | some value =>
      match rest, hescape with
      | [], h | [_], h =>
        rw [escape?_short (by simp)] at h
        cases h
      | x :: y :: tail, h =>
        have hpair := h
        rw [escape?_pair] at hpair
        cases hy : digit? y with
        | none =>
          rw [hy] at hpair
          cases hx : digit? x with
          | none =>
            rw [hx] at hpair
            cases hpair
          | some high =>
            rw [hx] at hpair
            cases hpair
        | some low =>
          cases hx : digit? x with
          | some high =>
            -- Both read the two digits.
            rw [hx, hy] at hpair
            refine .inl ⟨tail, value, by simp; omega, ?_, ?_, ?_⟩
            · intro fuel
              rw [percentLoop, if_pos rfl, h]
              rfl
            · rw [formDecode, if_pos rfl, hx, hy, ← Option.some.inj hpair]
            · have hxd : (digit? x).isSome = true := by rw [hx]; rfl
              have hyd : (digit? y).isSome = true := by rw [hy]; rfl
              rw [signedEscape_cons, signedEscape_cons, signedEscape_cons]
              constructor
              · rintro (⟨_, _, -, -, heq⟩ | ⟨_, _, -, heq, -⟩ | ⟨_, _, -, heq, -⟩ | htail)
                · exact absurd (List.cons.inj heq).1 (digit?_ne_plus hxd)
                · exact absurd heq (digit?_ne_percent hxd)
                · exact absurd heq (digit?_ne_percent hyd)
                · exact htail
              · exact fun htail => .inr (.inr (.inr htail))
          | none =>
            -- The sign makes the difference.
            rw [hx, hy] at hpair
            simp only at hpair
            split at hpair
            · next hsign =>
              obtain rfl := hsign
              have hlow := hexValue?_lt hy
              refine .inr ⟨value, ?_, ?_, ?_, ?_⟩
              · rw [← Option.some.inj hpair, UInt8.toNat_ofNat']
                omega
              · intro fuel
                exact ⟨_, by rw [percentLoop, if_pos rfl, h]⟩
              · exact ⟨_, by rw [formDecode, if_pos rfl, hx]⟩
              · exact signedEscape_cons.mpr (.inl ⟨y, tail, by rw [hy]; rfl, rfl, rfl⟩)
            · cases hpair
  · exact .inl ⟨rest, _, agree_of_ne hbyte rest⟩

/-- The decodings are the same, or a sign is taken for a digit and from there on
    they differ. -/
theorem percentLoop_cases {fuel : Nat} {bytes : List UInt8} (h : bytes.length ≤ fuel) :
    (¬SignedEscape bytes ∧ percentLoop fuel bytes = formDecode bytes) ∨
      SignedEscape bytes ∧ ∃ p out r r', out.toNat < 16 ∧
        percentLoop fuel bytes = p ++ out :: r ∧ formDecode bytes = p ++ 37 :: r' := by
  induction fuel generalizing bytes with
  | zero =>
    obtain rfl := List.length_eq_zero_iff.mp (Nat.le_zero.mp h)
    left
    refine ⟨?_, rfl⟩
    rintro ⟨d, -, hinfix⟩
    cases List.infix_nil.mp hinfix
  | succ fuel ih =>
    cases bytes with
    | nil =>
      left
      refine ⟨?_, rfl⟩
      rintro ⟨d, -, hinfix⟩
      cases List.infix_nil.mp hinfix
    | cons byte rest =>
      rw [List.length_cons] at h
      rcases round byte rest with ⟨tail, out, hagree⟩ | ⟨out, hdiffer⟩
      · have hshorter := hagree.shorter
        rw [hagree.signed, hagree.code, hagree.standard]
        rcases ih (show tail.length ≤ fuel by omega) with
          ⟨hnone, heq⟩ | ⟨hsigned, p, x, r, r', hx, hcode, hstandard⟩
        · exact .inl ⟨hnone, by rw [heq]⟩
        · right
          refine ⟨hsigned, out :: p, x, r, r', hx, ?_, ?_⟩
          · rw [hcode, List.cons_append]
          · rw [hstandard, List.cons_append]
      · obtain ⟨r, hcode⟩ := hdiffer.code fuel
        obtain ⟨r', hstandard⟩ := hdiffer.standard
        exact .inr ⟨hdiffer.signed, [], out, r, r', hdiffer.small, hcode, hstandard⟩

/-! ### Names that servers read -/

/-- Different ASCII bytes in the same place give different texts. -/
theorem lossy_ne {p r r' : List UInt8} {a b : UInt8} (ha : a.toNat < 128) (hb : b.toNat < 128)
    (hne : a ≠ b) : lossy (p ++ a :: r) ≠ lossy (p ++ b :: r') := by
  have hsplit : ∀ {x : UInt8} (tail : List UInt8), x.toNat < 128 →
      lossy (p ++ x :: tail) = lossy p ++ Char.ofNat x.toNat :: lossy tail := by
    intro x tail hx
    rw [lossy_append (not_continuation_of_ascii hx), ← lossy_char, encode_ascii hx]
    rfl
  intro heq
  rw [hsplit r ha, hsplit r' hb] at heq
  have hhead := (List.cons.inj (List.append_cancel_left heq)).1
  have hcode := congrArg Char.toNat hhead
  rw [toNat_ofNat_byte, toNat_ofNat_byte] at hcode
  exact hne (UInt8.toNat_inj.mp hcode)

theorem percentDecoded_eq_iff (key : List Char) :
    percentDecoded key = formDecoded key ↔ ¬SignedEscape (encode key) := by
  unfold percentDecoded formDecoded
  rcases percentLoop_cases (Nat.le_refl (encode key).length) with
    ⟨hnone, heq⟩ | ⟨hsigned, p, out, r, r', hsmall, hcode, hstandard⟩
  · rw [heq]
    exact ⟨fun _ => hnone, fun _ => rfl⟩
  · rw [hcode, hstandard]
    constructor
    · intro heq
      have hne : out ≠ 37 := by
        rintro rfl
        exact absurd hsmall (by decide)
      exact absurd heq (lossy_ne (by omega) (by decide) hne)
    · intro hnone
      exact absurd hsigned hnone

/-- A key is read as a server reads it exactly if no sign stands where a digit
    of an escape is due, and without such keys every credential in a URL is
    found. -/
theorem escapes_decoded (key value : List Char) :
    (percentDecoded key = formDecoded key ↔ ¬SignedEscape (encode key)) ∧
    ((∀ url ∈ urls value, ∀ key ∈ queryKeys url, percentDecoded key = formDecoded key) ↔
      ∀ url ∈ urls value, ∀ key ∈ queryKeys url, ¬SignedEscape (encode key)) ∧
    ((∀ url ∈ urls value, ∀ key ∈ queryKeys url, ¬SignedEscape (encode key)) →
      (urlCredentials value = true ↔ Exposes value)) := by
  refine ⟨percentDecoded_eq_iff key, ?_, ?_⟩
  · constructor
    · intro h url hurl key hkey
      exact (percentDecoded_eq_iff key).mp (h url hurl key hkey)
    · intro h url hurl key hkey
      exact (percentDecoded_eq_iff key).mpr (h url hurl key hkey)
  · intro h
    have hread : ∀ url ∈ urls value, ((queryKeys url).any fun key =>
        credential (percentDecoded key)) = true ↔
          ∃ key ∈ queryKeys url, credential (formDecoded key) = true := by
      intro url hurl
      rw [List.any_eq_true]
      constructor
      · rintro ⟨key, hkey, hcredential⟩
        rw [(percentDecoded_eq_iff key).mpr (h url hurl key hkey)] at hcredential
        exact ⟨key, hkey, hcredential⟩
      · rintro ⟨key, hkey, hcredential⟩
        rw [← (percentDecoded_eq_iff key).mpr (h url hurl key hkey)] at hcredential
        exact ⟨key, hkey, hcredential⟩
    unfold urlCredentials Exposes
    rw [List.any_eq_true]
    constructor
    · rintro ⟨url, hurl, hfound⟩
      rcases Bool.or_eq_true _ _ ▸ hfound with huser | hkey
      · exact ⟨url, hurl, .inl (List.contains_iff_mem.mp huser)⟩
      · exact ⟨url, hurl, .inr ((hread url hurl).mp hkey)⟩
    · rintro ⟨url, hurl, huser | hkey⟩
      · exact ⟨url, hurl, by rw [Bool.or_eq_true]; exact .inl (List.contains_iff_mem.mpr huser)⟩
      · exact ⟨url, hurl, by rw [Bool.or_eq_true]; exact .inr ((hread url hurl).mpr hkey)⟩

/-- A key that a server reads as `% AUTH`. -/
def hiddenKey : List Char := "%+AUTH".toList

/-- The key is taken for a line feed and `UTH`, so a credential goes unseen. -/
theorem escapes_decoded_sign : ¬(percentDecoded hiddenKey = formDecoded hiddenKey) ∧
    Exposes ("https://h/?".toList ++ hiddenKey ++ "=s".toList) ∧
    urlCredentials ("https://h/?".toList ++ hiddenKey ++ "=s".toList) = false := by
  refine ⟨?_, ?_, ?_⟩
  · decide +kernel
  · refine ⟨"h/?%+AUTH=s".toList, ?_, .inr ⟨hiddenKey, ?_, ?_⟩⟩
    · decide +kernel
    · decide +kernel
    · decide +kernel
  · decide +kernel

end Kyora.Mcp
