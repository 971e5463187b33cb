import Kyora.Framework.Utf8

/-! # Lossy decoding

  Decoding that never fails: a sequence of bytes that begins no character is
  replaced by U+FFFD, as many bytes at once as still could have begun one. What
  is encoded is read back, and a character cut short gives one replacement.
-/

namespace Utf8

/-- The replacement character. -/
def replacement : Char := '\uFFFD'

/-- The bytes of a character, by its first byte; 0 when none starts with it. -/
def width (first : UInt8) : Nat :=
  if first.toNat < 0x80 then 1
  else if first.toNat < 0xC2 then 0
  else if first.toNat < 0xE0 then 2
  else if first.toNat < 0xF0 then 3
  else if first.toNat < 0xF5 then 4
  else 0

/-- The second bytes that go with a first byte of a longer character. -/
def secondFits (first second : UInt8) : Bool :=
  if first.toNat = 0xE0 then 0xA0 ≤ second.toNat && second.toNat < 0xC0
  else if first.toNat = 0xED then 0x80 ≤ second.toNat && second.toNat < 0xA0
  else if first.toNat = 0xF0 then 0x90 ≤ second.toNat && second.toNat < 0xC0
  else if first.toNat = 0xF4 then 0x80 ≤ second.toNat && second.toNat < 0x90
  else isContinuation second

/-- The bytes that one replacement stands for, where no character can be read. -/
def brokenLength : List UInt8 → Nat
  | first :: second :: rest =>
    if 3 ≤ width first ∧ secondFits first second then
      if width first = 4 ∧ (rest.head?.map isContinuation).getD false then 3 else 2
    else 1
  | _ => 1

/-- Lossy decoding, one round for each character and each replacement. -/
def lossyLoop : Nat → List UInt8 → List Char
  | _, [] => []
  | 0, _ :: _ => []
  | fuel + 1, bytes =>
    match decodeChar bytes with
    | some (c, rest) => c :: lossyLoop fuel rest
    | none => replacement :: lossyLoop fuel (bytes.drop (brokenLength bytes))

/-- `String::from_utf8_lossy`. -/
def lossy (bytes : List UInt8) : List Char := lossyLoop bytes.length bytes

/-! ### The rounds -/

theorem brokenLength_pos (bytes : List UInt8) : 0 < brokenLength bytes := by
  unfold brokenLength
  split
  · split
    · split <;> omega
    · omega
  · omega

theorem decodeChar_nil : decodeChar [] = none := by
  cases hchar : decodeChar [] with
  | none => rfl
  | some x =>
    have hnil := (List.append_eq_nil_iff.mp (decodeChar_some hchar).symm).1
    exact absurd hnil (encodeChar_ne_nil x.1)

/-- As many rounds as there are bytes suffice. -/
theorem lossyLoop_eq {fuel : Nat} {bytes : List UInt8} (h : bytes.length ≤ fuel) :
    lossyLoop fuel bytes = lossy bytes := by
  have hstable : ∀ n fuel (bytes : List UInt8), bytes.length ≤ n → bytes.length ≤ fuel →
      lossyLoop fuel bytes = lossyLoop n bytes := by
    intro n
    induction n with
    | zero =>
      intro fuel bytes hn _
      obtain rfl := List.length_eq_zero_iff.mp (Nat.le_zero.mp hn)
      cases fuel <;> rfl
    | succ n ih =>
      intro fuel bytes hn hfuel
      cases bytes with
      | nil => cases fuel <;> rfl
      | cons b bytes =>
        obtain ⟨fuel, rfl⟩ : ∃ k, fuel = k + 1 :=
          ⟨fuel - 1, by rw [List.length_cons] at hfuel; omega⟩
        rw [List.length_cons] at hn hfuel
        show (match decodeChar (b :: bytes) with
          | some (c, rest) => c :: lossyLoop fuel rest
          | none => replacement :: lossyLoop fuel ((b :: bytes).drop (brokenLength (b :: bytes)))) =
          match decodeChar (b :: bytes) with
          | some (c, rest) => c :: lossyLoop n rest
          | none => replacement :: lossyLoop n ((b :: bytes).drop (brokenLength (b :: bytes)))
        cases hchar : decodeChar (b :: bytes) with
        | none =>
          have hpos := brokenLength_pos (b :: bytes)
          have hlength : ((b :: bytes).drop (brokenLength (b :: bytes))).length ≤ bytes.length := by
            rw [List.length_drop, List.length_cons]
            omega
          simp only
          rw [ih fuel _ (by omega) (by omega)]
        | some x =>
          have hbytes := congrArg List.length (decodeChar_some hchar)
          have hpos := length_encodeChar_pos x.1
          rw [List.length_append, List.length_cons] at hbytes
          simp only
          rw [ih fuel _ (by omega) (by omega)]
  exact hstable bytes.length fuel bytes (Nat.le_refl _) h

/-- A round that reads a character. -/
theorem lossy_char (c : Char) (rest : List UInt8) :
    lossy (String.utf8EncodeChar c ++ rest) = c :: lossy rest := by
  obtain ⟨b, bs, hb⟩ := List.exists_cons_of_ne_nil (encodeChar_ne_nil c)
  have hchar := decodeChar_encode c rest
  rw [hb, List.cons_append] at hchar
  rw [hb, List.cons_append, lossy, List.length_cons, lossyLoop, hchar]
  · exact congrArg (c :: ·) (lossyLoop_eq (by rw [List.length_append]; omega))
  · exact fun h => List.cons_ne_nil _ _ h

/-- A round that reads none. -/
theorem lossy_broken {bytes : List UInt8} (hne : bytes ≠ []) (h : decodeChar bytes = none) :
    lossy bytes = replacement :: lossy (bytes.drop (brokenLength bytes)) := by
  obtain ⟨b, bs, rfl⟩ := List.exists_cons_of_ne_nil hne
  have hpos := brokenLength_pos (b :: bs)
  rw [lossy, List.length_cons, lossyLoop, h]
  · refine congrArg (replacement :: ·) (lossyLoop_eq ?_)
    rw [List.length_drop, List.length_cons]
    omega
  · exact fun h => List.cons_ne_nil _ _ h

@[simp] theorem lossy_nil : lossy [] = [] := rfl

/-- What is encoded is read back. -/
theorem lossy_encode_append (text : List Char) (rest : List UInt8) :
    lossy (encode text ++ rest) = text ++ lossy rest := by
  induction text with
  | nil => rfl
  | cons c text ih =>
    rw [encode_cons, List.append_assoc, lossy_char, ih, List.cons_append]

@[simp] theorem lossy_encode (text : List Char) : lossy (encode text) = text := by
  have happend := lossy_encode_append text []
  rw [List.append_nil, lossy_nil, List.append_nil] at happend
  exact happend

/-! ### Pieces of a character -/

/-- A byte that goes on with a character begins none. -/
theorem decodeChar_continuation {b : UInt8} (h : isContinuation b = true) (bytes : List UInt8) :
    decodeChar (b :: bytes) = none := by
  cases hchar : decodeChar (b :: bytes) with
  | none => rfl
  | some x =>
    have hbytes := decodeChar_some hchar
    obtain ⟨first, others, hshape⟩ := exists_shape x.1
    rw [hshape.eq] at hbytes
    obtain ⟨rfl, -⟩ := List.cons.inj hbytes
    rw [hshape.starts] at h
    cases h

theorem width_continuation {b : UInt8} (h : isContinuation b = true) : width b = 0 := by
  simp only [isContinuation, Bool.and_eq_true, decide_eq_true_eq] at h
  rw [width, if_neg (by omega), if_pos (by omega)]

/-- Each byte in the middle of a character is replaced. -/
theorem lossy_continuations {bytes : List UInt8} (h : ∀ b ∈ bytes, isContinuation b = true)
    (rest : List UInt8) :
    lossy (bytes ++ rest) = List.replicate bytes.length replacement ++ lossy rest := by
  induction bytes with
  | nil => rfl
  | cons b bytes ih =>
    obtain ⟨hb, hbytes⟩ := List.forall_mem_cons.mp h
    have hone : brokenLength (b :: (bytes ++ rest)) = 1 := by
      unfold brokenLength
      split
      · next first second tail heq =>
        obtain ⟨rfl, -⟩ := List.cons.inj heq
        rw [if_neg]
        rintro ⟨hwidth, -⟩
        rw [width_continuation hb] at hwidth
        omega
      · rfl
    rw [List.cons_append, lossy_broken (List.cons_ne_nil _ _) (decodeChar_continuation hb _), hone,
      List.drop_succ_cons, List.drop_zero, ih hbytes]
    rfl

/-- The first bytes of a longer character. -/
structure Lead (c : Char) (first second : UInt8) (others : List UInt8) : Prop where
  eq : String.utf8EncodeChar c = first :: second :: others
  width : width first = others.length + 2
  fits : 3 ≤ Utf8.width first → secondFits first second = true

theorem toNat_ofNat_of_lt {n : Nat} (h : n < 256) : (UInt8.ofNat n).toNat = n := by
  rw [UInt8.toNat_ofNat']
  omega

theorem exists_lead {c : Char} (h : 128 ≤ c.toNat) : ∃ first second others,
    Lead c first second others := by
  have hv : c.val.toNat = c.toNat := rfl
  have hvalid : c.toNat < 0xD800 ∨ 0xDFFF < c.toNat ∧ c.toNat < 0x110000 := c.valid
  by_cases h₂ : c.toNat ≤ 2047
  · refine ⟨UInt8.ofNat (c.toNat / 64 % 32 + 192), UInt8.ofNat (c.toNat % 64 + 128), [], ?_, ?_, ?_⟩
    · simp only [String.utf8EncodeChar, hv, if_neg (show ¬c.toNat ≤ 127 by omega), if_pos h₂]
    · rw [width, toNat_ofNat_of_lt (by omega), if_neg (by omega), if_neg (by omega),
        if_pos (by omega)]
      rfl
    · rw [width, toNat_ofNat_of_lt (by omega), if_neg (by omega), if_neg (by omega),
        if_pos (by omega)]
      omega
  by_cases h₃ : c.toNat ≤ 65535
  · refine ⟨UInt8.ofNat (c.toNat / 4096 % 16 + 224), UInt8.ofNat (c.toNat / 64 % 64 + 128),
      [UInt8.ofNat (c.toNat % 64 + 128)], ?_, ?_, fun _ => ?_⟩
    · simp only [String.utf8EncodeChar, hv, if_neg (show ¬c.toNat ≤ 127 by omega), if_neg h₂,
        if_pos h₃]
    · rw [width, toNat_ofNat_of_lt (by omega), if_neg (by omega), if_neg (by omega),
        if_neg (by omega), if_pos (by omega)]
      rfl
    · -- E0 goes with large second bytes, ED with small ones
      rw [secondFits, toNat_ofNat_of_lt (by omega), toNat_ofNat_of_lt (by omega)]
      by_cases hE0 : c.toNat / 4096 % 16 + 224 = 0xE0
      · rw [if_pos hE0, Bool.and_eq_true, decide_eq_true_eq, decide_eq_true_eq]
        omega
      · rw [if_neg hE0]
        by_cases hED : c.toNat / 4096 % 16 + 224 = 0xED
        · rw [if_pos hED, Bool.and_eq_true, decide_eq_true_eq, decide_eq_true_eq]
          omega
        · rw [if_neg hED, if_neg (by omega), if_neg (by omega)]
          exact isContinuation_eq_true _
  · refine ⟨UInt8.ofNat (c.toNat / 262144 % 8 + 240), UInt8.ofNat (c.toNat / 4096 % 64 + 128),
      [UInt8.ofNat (c.toNat / 64 % 64 + 128), UInt8.ofNat (c.toNat % 64 + 128)],
      ?_, ?_, fun _ => ?_⟩
    · simp only [String.utf8EncodeChar, hv, if_neg (show ¬c.toNat ≤ 127 by omega), if_neg h₂,
        if_neg h₃]
    · rw [width, toNat_ofNat_of_lt (by omega), if_neg (by omega), if_neg (by omega),
        if_neg (by omega), if_neg (by omega), if_pos (by omega)]
      rfl
    · -- F0 goes with large second bytes, F4 with small ones
      rw [secondFits, toNat_ofNat_of_lt (by omega), toNat_ofNat_of_lt (by omega),
        if_neg (by omega), if_neg (by omega)]
      by_cases hF0 : c.toNat / 262144 % 8 + 240 = 0xF0
      · rw [if_pos hF0, Bool.and_eq_true, decide_eq_true_eq, decide_eq_true_eq]
        omega
      · rw [if_neg hF0]
        by_cases hF4 : c.toNat / 262144 % 8 + 240 = 0xF4
        · rw [if_pos hF4, Bool.and_eq_true, decide_eq_true_eq, decide_eq_true_eq]
          omega
        · rw [if_neg hF4]
          exact isContinuation_eq_true _

/-- A character cut short is not read. -/
theorem decodeChar_take {c : Char} {k : Nat} (hk : k < c.utf8Size) :
    decodeChar ((String.utf8EncodeChar c).take k) = none := by
  cases hchar : decodeChar ((String.utf8EncodeChar c).take k) with
  | none => rfl
  | some x =>
    have hbytes := decodeChar_some hchar
    have hprefix : encode [x.1] <+: encode [c] := by
      refine ⟨x.2 ++ (String.utf8EncodeChar c).drop k, ?_⟩
      rw [encode_cons, encode_nil, List.append_nil, ← List.append_assoc, ← hbytes,
        List.take_append_drop, encode_cons, encode_nil, List.append_nil]
    obtain ⟨rest, hrest⟩ := isPrefix_of_encode hprefix
    obtain ⟨hsame, -⟩ := List.cons.inj hrest
    -- all its bytes would have to be there
    have hlength := congrArg List.length hbytes
    rw [List.length_take, List.length_append, hsame, String.length_utf8EncodeChar] at hlength
    omega

/-- Only a longer character can be cut. -/
theorem wide_of_cut {c : Char} {k : Nat} (hpos : 0 < k) (hk : k < c.utf8Size) :
    128 ≤ c.toNat := by
  by_contra hlt
  obtain ⟨first, others, hshape⟩ := exists_shape c
  have hlength := String.length_utf8EncodeChar c
  rw [hshape.eq, (hshape.ascii (by omega)).2, List.length_singleton] at hlength
  omega

/-- A character cut short is one replacement. -/
theorem lossy_take {c : Char} {k : Nat} (hpos : 0 < k) (hk : k < c.utf8Size) :
    lossy ((String.utf8EncodeChar c).take k) = [replacement] := by
  obtain ⟨first, second, others, hlead⟩ := exists_lead (wide_of_cut hpos hk)
  obtain ⟨first', others', hshape⟩ := exists_shape c
  have hothers : others' = second :: others :=
    (List.cons.inj (hshape.eq.symm.trans hlead.eq)).2
  have hlength := String.length_utf8EncodeChar c
  rw [hlead.eq, List.length_cons, List.length_cons] at hlength
  have hshort := hshape.short
  rw [hothers, List.length_cons] at hshort
  have hall : brokenLength ((String.utf8EncodeChar c).take k) = k := by
    have hwidth := hlead.width
    rw [hlead.eq]
    rcases Nat.lt_or_ge 1 k with hk₂ | hk₁
    · have hfits := hlead.fits (by omega)
      obtain ⟨j, rfl⟩ : ∃ j, k = j + 2 := ⟨k - 2, by omega⟩
      rw [List.take_succ_cons, List.take_succ_cons, brokenLength, if_pos ⟨by omega, hfits⟩]
      rcases Nat.eq_zero_or_pos j with rfl | hj
      · rw [List.take_zero, if_neg (by simp)]
      · -- two of the four bytes follow, and the third is there
        obtain ⟨third, rest, rfl⟩ : ∃ third rest, others = third :: rest :=
          List.exists_cons_of_length_pos (by omega)
        rw [List.length_cons] at hwidth hlength hshort
        obtain ⟨i, rfl⟩ : ∃ i, j = i + 1 := ⟨j - 1, by omega⟩
        have hthird : isContinuation third = true := hshape.continues third (by rw [hothers]; simp)
        rw [List.take_succ_cons, if_pos ⟨by omega, by simpa using hthird⟩]
        omega
    · obtain rfl : k = 1 := by omega
      rfl
  have hne : (String.utf8EncodeChar c).take k ≠ [] := by
    rw [hlead.eq]
    obtain ⟨j, rfl⟩ : ∃ j, k = j + 1 := ⟨k - 1, by omega⟩
    exact List.cons_ne_nil _ _
  rw [lossy_broken hne (decodeChar_take hk), hall, List.drop_eq_nil_of_le (List.length_take_le _ _),
    lossy_nil]

/-! ### Cutting the bytes of a text -/

/-- A cut is between two characters or inside one. -/
theorem exists_cut {text : List Char} {i : Nat} (h : i ≤ (encode text).length) :
    (∃ before after, text = before ++ after ∧ (encode before).length = i) ∨
    ∃ before c after k, text = before ++ c :: after ∧ 0 < k ∧ k < c.utf8Size ∧
      i = (encode before).length + k := by
  induction text generalizing i with
  | nil => exact Or.inl ⟨[], [], rfl, (Nat.le_zero.mp h).symm⟩
  | cons c text ih =>
    rw [encode_cons, List.length_append, String.length_utf8EncodeChar] at h
    by_cases hzero : i = 0
    · exact Or.inl ⟨[], c :: text, rfl, hzero.symm⟩
    by_cases hinside : i < c.utf8Size
    · refine Or.inr ⟨[], c, text, i, rfl, by omega, hinside, ?_⟩
      rw [encode_nil, List.length_nil, Nat.zero_add]
    · rcases ih (i := i - c.utf8Size) (by omega) with
        ⟨before, after, rfl, hlength⟩ | ⟨before, c', after, k, rfl, hpos, hk, hi⟩
      · refine Or.inl ⟨c :: before, after, rfl, ?_⟩
        rw [encode_cons, List.length_append, String.length_utf8EncodeChar]
        omega
      · refine Or.inr ⟨c :: before, c', after, k, rfl, hpos, hk, ?_⟩
        rw [encode_cons, List.length_append, String.length_utf8EncodeChar]
        omega

/-- The two sides of a cut inside a character. -/
theorem cut_inside (before after : List Char) (c : Char) {k : Nat} (hk : k ≤ c.utf8Size) :
    (encode (before ++ c :: after)).take ((encode before).length + k) =
        encode before ++ (String.utf8EncodeChar c).take k ∧
      (encode (before ++ c :: after)).drop ((encode before).length + k) =
        (String.utf8EncodeChar c).drop k ++ encode after := by
  rw [encode_append, encode_cons]
  constructor
  · rw [List.take_length_add_append, List.take_append_of_le_length
      (by rw [String.length_utf8EncodeChar]; exact hk)]
  · rw [List.drop_length_add_append, List.drop_append_of_le_length
      (by rw [String.length_utf8EncodeChar]; exact hk)]

theorem isContinuation_drop {c : Char} {k : Nat} (hpos : 0 < k) :
    ∀ b ∈ (String.utf8EncodeChar c).drop k, isContinuation b = true := by
  obtain ⟨first, others, hshape⟩ := exists_shape c
  obtain ⟨j, rfl⟩ : ∃ j, k = j + 1 := ⟨k - 1, by omega⟩
  rw [hshape.eq, List.drop_succ_cons]
  intro b hb
  exact hshape.continues b (List.mem_of_mem_drop hb)

/-- Decoding the two sides of a cut gives the text back only between characters. -/
theorem lossy_cut_eq_iff {text : List Char} {i : Nat} (h : i ≤ (encode text).length) :
    lossy ((encode text).take i) ++ lossy ((encode text).drop i) = text ↔
      isBoundary (encode text) i = true := by
  rcases exists_cut h with ⟨before, after, rfl, rfl⟩ | ⟨before, c, after, k, rfl, hpos, hk, rfl⟩
  · refine ⟨fun _ => isBoundary_append before after, fun _ => ?_⟩
    rw [encode_append, List.take_left, List.drop_left, lossy_encode, lossy_encode]
  · obtain ⟨htake, hdrop⟩ := cut_inside before after c (Nat.le_of_lt hk)
    have hleft : lossy (encode before ++ (String.utf8EncodeChar c).take k) =
        before ++ [replacement] := by rw [lossy_encode_append, lossy_take hpos hk]
    have hright : lossy ((String.utf8EncodeChar c).drop k ++ encode after) =
        List.replicate (c.utf8Size - k) replacement ++ after := by
      rw [lossy_continuations (isContinuation_drop hpos), lossy_encode, List.length_drop,
        String.length_utf8EncodeChar]
    rw [htake, hdrop, hleft, hright]
    constructor
    · intro heq
      -- the character is replaced by two characters at least
      have hlength := congrArg List.length heq
      simp only [List.length_append, List.length_cons, List.length_nil, List.length_replicate]
        at hlength
      omega
    · intro hboundary
      obtain ⟨before', after', heq, hlength⟩ := isBoundary_iff.mp hboundary
      rcases List.append_eq_append_iff.mp heq with ⟨more, rfl, hmore⟩ | ⟨more, rfl, hmore⟩
      · cases more with
        | nil =>
          rw [List.append_nil] at hlength
          omega
        | cons c' more =>
          obtain ⟨rfl, -⟩ := List.cons.inj hmore
          rw [encode_append, encode_cons, List.length_append, List.length_append,
            String.length_utf8EncodeChar] at hlength
          omega
      · rw [encode_append, List.length_append] at hlength
        omega

/-! ### Bytes that begin afresh -/

/-- An ASCII byte goes on with no character. -/
theorem not_continuation_of_ascii {a : UInt8} (ha : a.toNat < 128) : isContinuation a = false := by
  simp only [isContinuation, Bool.and_eq_false_iff, decide_eq_false_iff_not]
  exact .inl (by omega)

theorem brokenLength_le {bytes : List UInt8} (hne : bytes ≠ []) :
    brokenLength bytes ≤ bytes.length := by
  match bytes with
  | [_] => exact Nat.le_refl 1
  | first :: second :: rest =>
    unfold brokenLength
    simp only [List.length_cons]
    split
    · split
      · next h =>
        cases rest with
        | nil => cases h.2
        | cons third rest =>
          rw [List.length_cons]
          omega
      · omega
    · omega

/-- What cannot be read is cut at a byte that goes on with no character. -/
theorem brokenLength_append {p : List UInt8} (hne : p ≠ []) {a : UInt8}
    (ha : isContinuation a = false) (r : List UInt8) :
    brokenLength (p ++ a :: r) = brokenLength p := by
  match p with
  | [first] =>
    have hfits : secondFits first a = false := by
      have hrange := ha
      simp only [isContinuation, Bool.and_eq_false_iff, decide_eq_false_iff_not] at hrange
      have hpart : ∀ low high, 128 ≤ low → high ≤ 192 →
          (decide (low ≤ a.toNat) && decide (a.toNat < high)) = false := by
        intro low high hlow hhigh
        simp only [Bool.and_eq_false_iff, decide_eq_false_iff_not]
        omega
      unfold secondFits
      split_ifs
      · exact hpart _ _ (by decide) (by decide)
      · exact hpart _ _ (by decide) (by decide)
      · exact hpart _ _ (by decide) (by decide)
      · exact hpart _ _ (by decide) (by decide)
      · exact ha
    change (if 3 ≤ width first ∧ secondFits first a then _ else 1) = 1
    rw [hfits, if_neg (by simp)]
  | [first, second] =>
    simp [brokenLength, ha]
  | first :: second :: third :: rest => rfl

/-- A character is not read across a byte that goes on with none. -/
theorem decodeChar_append {p : List UInt8} (hne : p ≠ []) {a : UInt8}
    (ha : isContinuation a = false) (r : List UInt8) :
    decodeChar (p ++ a :: r) = (decodeChar p).map fun x => (x.1, x.2 ++ a :: r) := by
  cases hp : decodeChar p with
  | some x =>
    obtain ⟨c, rest⟩ := x
    rw [decodeChar_some hp, List.append_assoc, decodeChar_encode]
    rfl
  | none =>
    cases hpr : decodeChar (p ++ a :: r) with
    | none => rfl
    | some x =>
      obtain ⟨c, rest⟩ := x
      have hbytes := decodeChar_some hpr
      exfalso
      rcases List.append_eq_append_iff.mp hbytes with ⟨extra, hc, hrest⟩ | ⟨extra, hpre, hrest⟩
      · -- The character would go on with `a`.
        obtain ⟨first, others, hshape⟩ := exists_shape c
        cases extra with
        | nil =>
          rw [List.append_nil] at hc
          have hread := decodeChar_encode c []
          rw [List.append_nil, hc, hp] at hread
          cases hread
        | cons b extra =>
          obtain ⟨rfl, -⟩ := List.cons.inj hrest
          obtain ⟨b, p, rfl⟩ := List.exists_cons_of_ne_nil hne
          rw [hshape.eq, List.cons_append] at hc
          obtain ⟨rfl, rfl⟩ := List.cons.inj hc
          have hcont := hshape.continues a (List.mem_append_right _ List.mem_cons_self)
          rw [ha] at hcont
          cases hcont
      · rw [hpre, decodeChar_encode] at hp
        cases hp

/-- Decoding starts afresh at a byte that goes on with no character. -/
theorem lossy_append {p : List UInt8} {a : UInt8} (ha : isContinuation a = false)
    (r : List UInt8) : lossy (p ++ a :: r) = lossy p ++ lossy (a :: r) := by
  induction hn : p.length using Nat.strongRecOn generalizing p with
  | _ n ih =>
    by_cases hne : p = []
    · rw [hne]
      rfl
    · have hread := decodeChar_append hne ha r
      cases hp : decodeChar p with
      | some x =>
        obtain ⟨c, rest⟩ := x
        have hbytes := decodeChar_some hp
        have hlt : rest.length < n := by
          have hpos := length_encodeChar_pos c
          rw [← hn, hbytes, List.length_append]
          omega
        rw [hbytes, List.append_assoc, lossy_char, lossy_char, ih _ hlt rfl, List.cons_append]
      | none =>
        rw [hp, Option.map_none] at hread
        have hpos := brokenLength_pos p
        have hle := brokenLength_le hne
        have hlt : (p.drop (brokenLength p)).length < n := by
          rw [List.length_drop]
          have := List.length_pos_of_ne_nil hne
          omega
        rw [lossy_broken (by simp) hread, lossy_broken hne hp, brokenLength_append hne ha,
          List.drop_append_of_le_length hle, ih _ hlt rfl, List.cons_append]

end Utf8
