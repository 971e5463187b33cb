import Mathlib.Data.List.Basic

/-! # UTF-8 texts as bytes

  A text is a list of characters, its bytes are the encodings of the characters
  one after the other. Decoding reads one character after the other and fails
  at the first one that is not encoded. The encodings of one character come from
  the core library, which also proves that they can be read back.
-/

namespace Utf8

/-- The bytes of a text. -/
def encode (text : List Char) : List UInt8 := text.flatMap String.utf8EncodeChar

/-- The first character and the bytes after it. -/
def decodeChar (bytes : List UInt8) : Option (Char × List UInt8) :=
  (bytes.toByteArray.utf8DecodeChar? 0).map fun c => (c, bytes.drop c.utf8Size)

/-- Decoding, one round for each character. -/
def decodeLoop : Nat → List UInt8 → Option (List Char)
  | _, [] => some []
  | 0, _ :: _ => none
  | fuel + 1, bytes =>
    (decodeChar bytes).bind fun (c, rest) => (decodeLoop fuel rest).map (c :: ·)

/-- The text that the bytes encode. A character has at least one byte. -/
def decode (bytes : List UInt8) : Option (List Char) := decodeLoop bytes.length bytes

/-! ### Encoding -/

@[simp] theorem encode_nil : encode [] = [] := rfl

@[simp] theorem encode_cons (c : Char) (text : List Char) :
    encode (c :: text) = String.utf8EncodeChar c ++ encode text := List.flatMap_cons

@[simp] theorem encode_append (s t : List Char) : encode (s ++ t) = encode s ++ encode t :=
  List.flatMap_append

theorem length_encodeChar_pos (c : Char) : 0 < (String.utf8EncodeChar c).length := by
  rw [String.length_utf8EncodeChar]
  exact c.utf8Size_pos

theorem encodeChar_ne_nil (c : Char) : String.utf8EncodeChar c ≠ [] :=
  List.ne_nil_of_length_pos (length_encodeChar_pos c)

theorem encode_eq_nil {text : List Char} (h : encode text = []) : text = [] := by
  cases text with
  | nil => rfl
  | cons c text => exact absurd (List.append_eq_nil_iff.mp h).1 (encodeChar_ne_nil c)

/-! ### The bytes of one character -/

/-- A byte that goes on with a character. -/
def isContinuation (b : UInt8) : Bool := 128 ≤ b.toNat && b.toNat < 192

/-- The bytes of a character: the first one tells how it goes on. -/
structure Shape (c : Char) (first : UInt8) (others : List UInt8) : Prop where
  eq : String.utf8EncodeChar c = first :: others
  starts : isContinuation first = false
  continues : ∀ b ∈ others, isContinuation b = true
  short : others.length ≤ 3
  ascii : c.toNat < 128 → first.toNat = c.toNat ∧ others = []
  wide : 128 ≤ c.toNat → 192 ≤ first.toNat

theorem isContinuation_eq_false {n : Nat} (h : n < 128 ∨ 192 ≤ n ∧ n < 256) :
    isContinuation (UInt8.ofNat n) = false := by
  have hn : (UInt8.ofNat n).toNat = n := by
    rw [UInt8.toNat_ofNat']
    omega
  simp only [isContinuation, hn, Bool.and_eq_false_iff, decide_eq_false_iff_not]
  omega

theorem isContinuation_eq_true (n : Nat) : isContinuation (UInt8.ofNat (n % 64 + 128)) = true := by
  have hn : (UInt8.ofNat (n % 64 + 128)).toNat = n % 64 + 128 := by
    rw [UInt8.toNat_ofNat']
    omega
  simp only [isContinuation, hn, Bool.and_eq_true, decide_eq_true_eq]
  omega

theorem Shape.of_bytes {c : Char} (n : Nat) (others : List UInt8)
    (heq : String.utf8EncodeChar c = UInt8.ofNat n :: others)
    (hn : n < 128 ∧ n = c.toNat ∧ others = [] ∨ 192 ≤ n ∧ n < 256 ∧ 128 ≤ c.toNat)
    (hothers : ∀ b ∈ others, isContinuation b = true) (hshort : others.length ≤ 3) :
    Shape c (UInt8.ofNat n) others := by
  have htoNat : (UInt8.ofNat n).toNat = n := by
    rw [UInt8.toNat_ofNat']
    omega
  refine ⟨heq, isContinuation_eq_false (by omega), hothers, hshort, ?_, ?_⟩
  · intro hc
    rw [htoNat]
    obtain ⟨-, hcode, hnil⟩ | ⟨-, -, hwide⟩ := hn
    · exact ⟨hcode, hnil⟩
    · omega
  · intro hc
    rw [htoNat]
    omega

/-- The encoder has one case for each number of bytes. -/
theorem exists_shape (c : Char) : ∃ first others, Shape c first others := by
  have hv : c.val.toNat = c.toNat := rfl
  have hlast : ∀ n, ∀ b ∈ [UInt8.ofNat (n % 64 + 128)], isContinuation b = true :=
    fun n => List.forall_mem_singleton.mpr (isContinuation_eq_true n)
  by_cases h₁ : c.toNat ≤ 127
  · refine ⟨_, _, Shape.of_bytes c.toNat [] ?_ (Or.inl ⟨by omega, rfl, rfl⟩) (by simp) (by simp)⟩
    simp only [String.utf8EncodeChar, hv, if_pos h₁]
  by_cases h₂ : c.toNat ≤ 2047
  · refine ⟨_, _, Shape.of_bytes (c.toNat / 64 % 32 + 192) [.ofNat (c.toNat % 64 + 128)]
      ?_ (Or.inr (by omega)) (hlast _) (by simp)⟩
    simp only [String.utf8EncodeChar, hv, if_neg h₁, if_pos h₂]
  by_cases h₃ : c.toNat ≤ 65535
  · refine ⟨_, _, Shape.of_bytes (c.toNat / 4096 % 16 + 224)
      [.ofNat (c.toNat / 64 % 64 + 128), .ofNat (c.toNat % 64 + 128)]
      ?_ (Or.inr (by omega))
      (List.forall_mem_cons.mpr ⟨isContinuation_eq_true _, hlast _⟩) (by simp)⟩
    simp only [String.utf8EncodeChar, hv, if_neg h₁, if_neg h₂, if_pos h₃]
  · refine ⟨_, _, Shape.of_bytes (c.toNat / 262144 % 8 + 240)
      [.ofNat (c.toNat / 4096 % 64 + 128), .ofNat (c.toNat / 64 % 64 + 128),
        .ofNat (c.toNat % 64 + 128)]
      ?_ (Or.inr (by omega))
      (List.forall_mem_cons.mpr ⟨isContinuation_eq_true _,
        List.forall_mem_cons.mpr ⟨isContinuation_eq_true _, hlast _⟩⟩) (by simp)⟩
    simp only [String.utf8EncodeChar, hv, if_neg h₁, if_neg h₂, if_neg h₃]

/-- A byte below 128 is a character of its own. -/
theorem mem_encode_ascii {text : List Char} {b : UInt8} (hb : b.toNat < 128)
    (h : b ∈ encode text) : ∃ c ∈ text, c.toNat = b.toNat := by
  obtain ⟨c, hc, hmem⟩ := List.mem_flatMap.mp h
  obtain ⟨first, others, hshape⟩ := exists_shape c
  rw [hshape.eq] at hmem
  refine ⟨c, hc, ?_⟩
  obtain rfl | hother := List.mem_cons.mp hmem
  · by_cases hascii : c.toNat < 128
    · exact (hshape.ascii hascii).1.symm
    · have := hshape.wide (by omega)
      omega
  · have hcont := hshape.continues b hother
    simp only [isContinuation, Bool.and_eq_true, decide_eq_true_eq] at hcont
    omega

/-- ASCII bytes are a text. -/
theorem exists_encode_of_ascii {bytes : List UInt8} (h : ∀ b ∈ bytes, b.toNat < 128) :
    ∃ text, encode text = bytes := by
  induction bytes with
  | nil => exact ⟨[], rfl⟩
  | cons b bytes ih =>
    obtain ⟨hb, hrest⟩ := List.forall_mem_cons.mp h
    obtain ⟨text, rfl⟩ := ih hrest
    have hcode : (Char.ofNat b.toNat).toNat = b.toNat := by
      rw [Char.ofNat, dif_pos (Or.inl (by omega))]
      rfl
    obtain ⟨first, others, hshape⟩ := exists_shape (Char.ofNat b.toNat)
    obtain ⟨hfirst, hothers⟩ := hshape.ascii (by omega)
    refine ⟨Char.ofNat b.toNat :: text, ?_⟩
    rw [encode_cons, hshape.eq, hothers, UInt8.toNat_inj.mp (hfirst.trans hcode)]
    rfl

/-! ### Reading one character -/

theorem decodeChar_encode (c : Char) (rest : List UInt8) :
    decodeChar (String.utf8EncodeChar c ++ rest) = some (c, rest) := by
  have hdrop : (String.utf8EncodeChar c ++ rest).drop c.utf8Size = rest := by
    rw [← String.length_utf8EncodeChar, List.drop_left]
  rw [decodeChar, List.toByteArray_append, ByteArray.utf8DecodeChar?_utf8EncodeChar_append,
    Option.map_some, hdrop]

/-- What is read is what was encoded. -/
theorem decodeChar_some {bytes rest : List UInt8} {c : Char}
    (h : decodeChar bytes = some (c, rest)) : bytes = String.utf8EncodeChar c ++ rest := by
  obtain ⟨c', hc, heq⟩ := Option.map_eq_some_iff.mp h
  obtain ⟨rfl, rfl⟩ := Prod.mk.inj heq
  have hbytes := ByteArray.eq_of_utf8DecodeChar?_eq_some hc
  -- The core library states this about byte arrays, whose lists of bytes are compared.
  have hlist := congrArg (fun b : ByteArray => b.data.toList) hbytes
  simp only [List.data_toByteArray, ByteArray.data_append, Array.toList_append,
    ByteArray.data_extract] at hlist
  have htake : String.utf8EncodeChar c' = bytes.take c'.utf8Size := by
    rw [hlist, ← String.length_utf8EncodeChar c', List.take_left]
  rw [htake, List.take_append_drop]

/-! ### Reading a text -/

theorem decodeLoop_encode {text : List Char} {fuel : Nat} (h : (encode text).length ≤ fuel) :
    decodeLoop fuel (encode text) = some text := by
  induction text generalizing fuel with
  | nil => cases fuel <;> rfl
  | cons c text ih =>
    rw [encode_cons, List.length_append] at h
    have hpos := length_encodeChar_pos c
    obtain ⟨fuel, rfl⟩ : ∃ n, fuel = n + 1 := ⟨fuel - 1, by omega⟩
    obtain ⟨b, bs, hb⟩ := List.exists_cons_of_ne_nil (encodeChar_ne_nil c)
    have hstep : decodeLoop (fuel + 1) (encode (c :: text)) =
        (decodeChar (encode (c :: text))).bind fun x => (decodeLoop fuel x.2).map (x.1 :: ·) := by
      rw [encode_cons, hb]
      rfl
    have hrest : decodeLoop fuel (encode text) = some text := ih (by omega)
    rw [hstep, encode_cons, decodeChar_encode, Option.bind_some, hrest, Option.map_some]

theorem decodeLoop_some {fuel : Nat} {bytes : List UInt8} {text : List Char}
    (h : decodeLoop fuel bytes = some text) : bytes = encode text := by
  induction fuel generalizing bytes text with
  | zero =>
    cases bytes with
    | nil =>
      obtain rfl := Option.some.inj h
      rfl
    | cons b bytes => cases h
  | succ fuel ih =>
    cases bytes with
    | nil =>
      obtain rfl := Option.some.inj h
      rfl
    | cons b bytes =>
      obtain ⟨⟨c, rest⟩, hc, h⟩ := Option.bind_eq_some_iff.mp h
      obtain ⟨text, hrest, rfl⟩ := Option.map_eq_some_iff.mp h
      rw [decodeChar_some hc, ih hrest, encode_cons]

@[simp] theorem decode_encode (text : List Char) : decode (encode text) = some text :=
  decodeLoop_encode (Nat.le_refl _)

theorem decode_eq_some_iff {bytes : List UInt8} {text : List Char} :
    decode bytes = some text ↔ bytes = encode text := by
  constructor
  · intro h
    exact decodeLoop_some h
  · intro h
    rw [h, decode_encode]

theorem encode_injective {s t : List Char} (h : encode s = encode t) : s = t := by
  have hs := decode_encode s
  rw [h, decode_encode] at hs
  exact (Option.some.inj hs).symm

/-! ### Boundaries -/

/-- A text is a prefix of another one if its bytes are. -/
theorem isPrefix_of_encode {s t : List Char} (h : encode s <+: encode t) : s <+: t := by
  induction s generalizing t with
  | nil => exact List.nil_prefix
  | cons c s ih =>
    obtain ⟨rest, hrest⟩ := h
    rw [encode_cons, List.append_assoc] at hrest
    cases t with
    | nil =>
      have hnil := (List.append_eq_nil_iff.mp hrest).1
      exact absurd hnil (encodeChar_ne_nil c)
    | cons c' t =>
      -- the first character of these bytes is both
      have hc := decodeChar_encode c (encode s ++ rest)
      rw [hrest, encode_cons, decodeChar_encode] at hc
      obtain ⟨rfl, htail⟩ := Prod.mk.inj (Option.some.inj hc)
      exact List.cons_prefix_cons.mpr ⟨rfl, ih ⟨rest, htail.symm⟩⟩

/-- Where a text is continued, its bytes are those of its continuation. -/
theorem exists_append_of_le {pre rest before after : List Char}
    (h : pre ++ rest = before ++ after)
    (hle : (encode pre).length ≤ (encode before).length) :
    ∃ mid, before = pre ++ mid ∧ rest = mid ++ after := by
  have hpre : encode pre <+: encode (pre ++ rest) :=
    ⟨encode rest, (encode_append pre rest).symm⟩
  have hbefore : encode before <+: encode (pre ++ rest) :=
    ⟨encode after, by rw [h, encode_append]⟩
  obtain ⟨mid, rfl⟩ := isPrefix_of_encode (List.prefix_of_prefix_length_le hpre hbefore hle)
  rw [List.append_assoc] at h
  exact ⟨mid, rfl, List.append_cancel_left h⟩

/-- `is_char_boundary`. -/
def isBoundary (bytes : List UInt8) (i : Nat) : Bool :=
  i == 0 || match bytes[i]? with
    | none => i == bytes.length
    | some b => !isContinuation b

theorem isBoundary_zero (bytes : List UInt8) : isBoundary bytes 0 = true := rfl

theorem isBoundary_length (bytes : List UInt8) : isBoundary bytes bytes.length = true := by
  simp [isBoundary]

theorem isBoundary_le {bytes : List UInt8} {i : Nat} (h : isBoundary bytes i = true) :
    i ≤ bytes.length := by
  by_contra hlt
  have hnone : bytes[i]? = none := List.getElem?_eq_none (by omega)
  rw [isBoundary, hnone] at h
  simp only [Bool.or_eq_true, beq_iff_eq] at h
  omega

theorem isBoundary_append (before after : List Char) :
    isBoundary (encode (before ++ after)) (encode before).length = true := by
  have hget : (encode (before ++ after))[(encode before).length]? = (encode after)[0]? := by
    rw [encode_append, List.getElem?_append_right (Nat.le_refl _), Nat.sub_self]
  rw [isBoundary, hget]
  cases after with
  | nil => simp
  | cons c after =>
    obtain ⟨first, others, hshape⟩ := exists_shape c
    simp [hshape.eq, hshape.starts]

/-- The boundaries of a text are where it can be split. -/
theorem isBoundary_iff {text : List Char} {i : Nat} :
    isBoundary (encode text) i = true ↔
      ∃ before after, text = before ++ after ∧ (encode before).length = i := by
  induction text generalizing i with
  | nil =>
    constructor
    · intro h
      have hle := isBoundary_le h
      exact ⟨[], [], rfl, (Nat.le_zero.mp hle).symm⟩
    · rintro ⟨before, after, heq, rfl⟩
      obtain ⟨rfl, rfl⟩ := List.append_eq_nil_iff.mp heq.symm
      rfl
  | cons c text ih =>
    obtain ⟨first, others, hshape⟩ := exists_shape c
    have hlength : (String.utf8EncodeChar c).length = others.length + 1 := by
      rw [hshape.eq, List.length_cons]
    constructor
    · intro h
      by_cases hzero : i = 0
      · exact ⟨[], c :: text, rfl, hzero.symm⟩
      by_cases hinside : i ≤ others.length
      · -- inside the character
        obtain ⟨k, rfl⟩ : ∃ k, i = k + 1 := ⟨i - 1, by omega⟩
        have hget : (encode (c :: text))[k + 1]? = others[k]? := by
          rw [encode_cons, hshape.eq, List.cons_append, List.getElem?_cons_succ,
            List.getElem?_append_left (by omega)]
        have hk : k < others.length := by omega
        rw [isBoundary, hget, List.getElem?_eq_getElem hk] at h
        simp [hshape.continues _ (List.getElem_mem hk)] at h
      · have hshift : isBoundary (encode text) (i - (others.length + 1)) = true := by
          have hget : (encode (c :: text))[i]? = (encode text)[i - (others.length + 1)]? := by
            rw [encode_cons, List.getElem?_append_right (by omega), hlength]
          rw [isBoundary, hget] at h
          rw [isBoundary]
          cases hb : (encode text)[i - (others.length + 1)]? with
          | none =>
            rw [hb] at h
            simp only [Bool.or_eq_true, beq_iff_eq, encode_cons, List.length_append, hlength] at h ⊢
            omega
          | some b =>
            rw [hb] at h
            simp only [Bool.or_eq_true, beq_iff_eq] at h ⊢
            exact Or.inr (h.resolve_left hzero)
        obtain ⟨before, after, rfl, hbefore⟩ := ih.mp hshift
        refine ⟨c :: before, after, rfl, ?_⟩
        rw [encode_cons, List.length_append, hlength, hbefore]
        omega
    · rintro ⟨before, after, heq, rfl⟩
      rw [heq]
      exact isBoundary_append before after

/-- The bytes of a text are found in the bytes of another one where the text is in
    the other one. -/
theorem exists_split {text v : List Char} {before after : List UInt8} (hv : v ≠ [])
    (h : encode text = before ++ encode v ++ after) :
    ∃ s t, text = s ++ v ++ t ∧ encode s = before ∧ encode t = after := by
  obtain ⟨c, v', rfl⟩ := List.exists_cons_of_ne_nil hv
  obtain ⟨first, others, hshape⟩ := exists_shape c
  have hget : (encode text)[before.length]? = some first := by
    rw [h, List.append_assoc, List.getElem?_append_right (Nat.le_refl _), Nat.sub_self,
      encode_cons, hshape.eq]
    rfl
  have hboundary : isBoundary (encode text) before.length = true := by
    rw [isBoundary, hget]
    simp [hshape.starts]
  obtain ⟨s, rest, rfl, hlength⟩ := isBoundary_iff.mp hboundary
  rw [encode_append, List.append_assoc] at h
  obtain ⟨hs, hrest⟩ := List.append_inj h hlength
  obtain ⟨t, rfl⟩ := isPrefix_of_encode ⟨after, hrest.symm⟩
  rw [encode_append] at hrest
  exact ⟨s, t, (List.append_assoc ..).symm, hs, List.append_cancel_left hrest⟩

end Utf8
