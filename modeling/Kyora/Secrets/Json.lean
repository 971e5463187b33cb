import Kyora.Framework.SortedMap
import Kyora.Protocol
import Kyora.Secrets.Shown
import Mathlib.Data.String.Basic

/-! # Redaction of JSON values

  `redact_json` redacts every string of a value, the keys of its objects
  included, and builds every object anew from the redacted members. Members
  whose redacted keys are the same end up as one, so a value keeps all its data
  exactly if no object of it has two such keys.
-/

namespace Kyora

/-! ### The redaction -/

namespace Secrets

/-- `redact`. The pieces of a text are texts, so what is put together is one. -/
def redactText (search : Search) (s : Secrets) (text : String) : Option String :=
  (s.redact search (Utf8.encode text.toList)).bind fun bytes =>
    (Utf8.decode bytes).map String.ofList

/-- Whether a text contains a value, as it is or with its escapes decoded. -/
def foundIn (search : Search) (s : Secrets) (text : String) : Option Bool :=
  if s.values.isEmpty then some false
  else
    let patterns := s.values.map SecretValue.bytes
    let bytes := Utf8.encode text.toList
    if (search patterns bytes).isEmpty then
      (Decoded.new bytes false).map fun view =>
        view.any fun view => !(search patterns view.text).isEmpty
    else some true

/-- A number with its decimal text. -/
def redactNumber (search : Search) (s : Secrets) (text : String) (number : Json) : Option Json :=
  if minSecretChars ≤ (Utf8.encode text.toList).length then
    (s.foundIn search text).map fun found => if found then .string "[redacted]" else number
  else some number

mutual

/-- Redacts every string in a value, object keys included. A number whose decimal
    form contains a value becomes the placeholder string. -/
def redactJson (search : Search) (s : Secrets) (value : Json) : Option Json :=
  if s.values.isEmpty then some value
  else
    match value with
    | .string text => (s.redactText search text).map .string
    | .integer i => s.redactNumber search (toString i) (.integer i)
    | .decimal text => s.redactNumber search text (.decimal text)
    | .array items => (redactItems search s items).map .array
    | .object members =>
      (redactMembers search s members).map fun members =>
        .object (SortedMap.ofList members).entries
    | .null => some .null
    | .bool b => some (.bool b)

def redactItems (search : Search) (s : Secrets) (items : List Json) : Option (List Json) :=
  match items with
  | [] => some []
  | item :: items =>
    (redactJson search s item).bind fun item =>
      (redactItems search s items).map fun items => item :: items

/-- The redacted members, before they are collected. -/
def redactMembers (search : Search) (s : Secrets) (members : List (String × Json)) :
    Option (List (String × Json)) :=
  match members with
  | [] => some []
  | (key, value) :: members =>
    (redactJson search s value).bind fun value =>
      (s.redactText search key).bind fun key =>
        (redactMembers search s members).map fun members => (key, value) :: members

end

end Secrets

/-! ### What is to be kept -/

/-- A value stands in a text. -/
def Contains (s : Secrets) (text : String) : Prop := ∃ v ∈ s.values, v.text <:+: text.toList

section kept

variable (search : Search) (s : Secrets)

/-- What becomes of a number. -/
def KeepsNumber (text : String) (number out : Json) : Prop :=
  Contains s text ∧ out = .string "[redacted]" ∨ ¬Contains s text ∧ out = number

mutual

/-- A value with all its data: every string is replaced by its redaction, a number
    that contains a value by the placeholder, and nothing is left out. -/
def Keeps : Json → Json → Prop
  | .null, out => out = .null
  | .bool b, out => out = .bool b
  | .integer i, out => KeepsNumber s (toString i) (.integer i) out
  | .decimal text, out => KeepsNumber s text (.decimal text) out
  | .string text, out => ∃ redacted, s.redactText search text = some redacted ∧
      out = .string redacted
  | .array items, out => ∃ outs, out = .array outs ∧ KeepsItems items outs
  | .object members, out => ∃ outs, out = .object outs ∧
      ∃ placed, KeepsMembers members placed ∧ outs.Perm placed

/-- The items in their order. -/
def KeepsItems : List Json → List Json → Prop
  | [], outs => outs = []
  | item :: items, outs => ∃ out rest, outs = out :: rest ∧ Keeps item out ∧ KeepsItems items rest

/-- Every member with its redacted key and redacted value. -/
def KeepsMembers : List (String × Json) → List (String × Json) → Prop
  | [], placed => placed = []
  | (key, value) :: members, placed => ∃ redacted out rest, placed = (redacted, out) :: rest ∧
      s.redactText search key = some redacted ∧ Keeps value out ∧ KeepsMembers members rest

end

mutual

/-- No object of the value has two keys with one redaction. -/
def KeysApart : Json → Prop
  | .array items => KeysApartItems items
  | .object members =>
    ((members.map Prod.fst).map (s.redactText search)).Nodup ∧ KeysApartMembers members
  | _ => True

def KeysApartItems : List Json → Prop
  | [] => True
  | item :: items => KeysApart item ∧ KeysApartItems items

def KeysApartMembers : List (String × Json) → Prop
  | [] => True
  | (_, value) :: members => KeysApart value ∧ KeysApartMembers members

end

mutual

/-- A value as the parser builds it: the keys of an object ascend, and the text of
    a number has no backslash. -/
def Json.Proper : Json → Prop
  | .decimal text => '\\' ∉ text.toList
  | .array items => ProperItems items
  | .object members => (members.Pairwise fun m m' => m.1 < m'.1) ∧ ProperMembers members
  | _ => True

def ProperItems : List Json → Prop
  | [] => True
  | item :: items => Json.Proper item ∧ ProperItems items

def ProperMembers : List (String × Json) → Prop
  | [] => True
  | (_, value) :: members => Json.Proper value ∧ ProperMembers members

end

end kept

/-! ### Redacted texts -/

section texts

variable {search : Search} {s : Secrets}

/-- A text of any size is redacted. -/
theorem exists_redact (hsearch : Reports search) (s : Secrets) (text : List Char) :
    ∃ out, s.redact search (Utf8.encode text) = some (Utf8.encode out) := by
  suffices h : ∃ bytes, s.redact search (Utf8.encode text) = some bytes by
    obtain ⟨bytes, hbytes⟩ := h
    obtain ⟨out, rfl⟩ := isText_redactSpans hbytes
    exact ⟨out, hbytes⟩
  by_cases hsize : (Utf8.encode text).length + 1 < 2 ^ 32
  · obtain ⟨a, ranges, out, hout, -⟩ := @redactSpans_spec search text false hsearch hsize s 0
    exact ⟨out, hout⟩
  · have hspans : ∀ x ∈ search (s.values.map SecretValue.bytes) (Utf8.encode text),
        x.1 < x.2 ∧ x.2 ≤ x.1 + s.reach ∧ Spans.Aligned (Utf8.encode text) x := by
      intro x hx
      have hsecret : Secret s (Utf8.encode text) false x := Or.inl ((hsearch.mem_iff _ _ x).mp hx)
      exact hsecret.span
    obtain ⟨spans, emitted, hfold, hmerging⟩ := Spans.Merging.init.pushAll
      (Utf8.isBoundary_zero _) hspans (by rw [List.nil_append]; exact hsearch.ordered _ _)
    simp only [Secrets.redact, Secrets.redactFrom, Secrets.redactSpans, alignUp_zero]
    by_cases hvalues : s.values.isEmpty = true
    · rw [if_pos hvalues, slice_whole]
      exact ⟨_, rfl⟩
    · rw [if_neg hvalues, findMatches_large (by omega), Option.bind_eq_bind, Option.bind_some,
        hfold, Option.bind_eq_bind, Option.bind_some, hmerging.finish (Utf8.isBoundary_zero _)]
      exact ⟨_, rfl⟩

theorem exists_redactText (hsearch : Reports search) (s : Secrets) (text : String) :
    ∃ out, s.redactText search text = some out := by
  obtain ⟨out, hout⟩ := exists_redact hsearch s text.toList
  refine ⟨String.ofList out, ?_⟩
  rw [Secrets.redactText, hout, Option.bind_some, Utf8.decode_encode, Option.map_some]

/-- Without values a text is its own redaction. -/
theorem redactText_empty (hvalues : s.values.isEmpty = true) (text : String) :
    s.redactText search text = some text := by
  have hredact : s.redact search (Utf8.encode text.toList) = some (Utf8.encode text.toList) := by
    simp only [Secrets.redact, Secrets.redactFrom, Secrets.redactSpans, alignUp_zero]
    rw [if_pos hvalues, slice_whole]
  rw [Secrets.redactText, hredact, Option.bind_some, Utf8.decode_encode, Option.map_some,
    String.ofList_toList]

/-! ### Numbers -/

/-- The automaton finds a value exactly where one stands. -/
theorem search_isEmpty_iff (hsearch : Reports search) (text : List Char) :
    (search (s.values.map SecretValue.bytes) (Utf8.encode text)).isEmpty = false ↔
      ∃ v ∈ s.values, v.text <:+: text := by
  rw [List.isEmpty_eq_false_iff_exists_mem]
  constructor
  · intro h
    obtain ⟨r, hr⟩ := h
    obtain ⟨v, hv, before, after, htext, -⟩ := ((hsearch.mem_iff _ _ r).mp hr).split
    exact ⟨v, hv, before, after, htext.symm⟩
  · intro h
    obtain ⟨v, hv, before, after, rfl⟩ := h
    exact ⟨_, (hsearch.mem_iff _ _ _).mpr (Occurs.of_split hv before after)⟩

theorem contains_empty (hvalues : s.values.isEmpty = true) (text : String) :
    ¬Contains s text := by
  intro h
  obtain ⟨v, hv, -⟩ := h
  rw [List.isEmpty_iff.mp hvalues] at hv
  exact absurd hv List.not_mem_nil

/-- A text that contains a value is as long as one. -/
theorem Contains.long {text : String} (h : Contains s text) :
    minSecretChars ≤ (Utf8.encode text.toList).length := by
  obtain ⟨v, -, before, after, htext⟩ := h
  have hchars : text.toList.length ≤ (Utf8.encode text.toList).length := by
    generalize text.toList = chars
    induction chars with
    | nil => exact Nat.le_refl 0
    | cons c chars ih =>
      have hpos := Utf8.length_encodeChar_pos c
      rw [Utf8.encode_cons, List.length_append, List.length_cons]
      omega
  have hlong := v.long
  rw [← htext, List.length_append, List.length_append] at hchars
  rw [← htext]
  omega

/-- Nothing is decoded in a text without a backslash. -/
theorem new_plain {text : List Char} (h : '\\' ∉ text) :
    Decoded.new (Utf8.encode text) false = some none := by
  have hslash : (0x5C : UInt8) ∉ Utf8.encode text := by
    intro hmem
    obtain ⟨c, hc, hnat⟩ := Utf8.mem_encode_ascii (by decide) hmem
    have hc' : c = '\\' := Char.toNat_inj.mp hnat
    exact h (hc' ▸ hc)
  by_cases hsize : 2 ^ 32 ≤ (Utf8.encode text).length + 1
  · exact if_pos hsize
  · simp only [Decoded.new, Decoded.plain, if_neg hsize, if_pos hslash, Bool.false_eq_true,
      if_false]

theorem foundIn_plain (hsearch : Reports search) {text : String} (h : '\\' ∉ text.toList) :
    ∃ found, s.foundIn search text = some found ∧ (found = true ↔ Contains s text) := by
  unfold Secrets.foundIn
  by_cases hvalues : s.values.isEmpty = true
  · rw [if_pos hvalues]
    exact ⟨false, rfl, by simp [contains_empty hvalues text]⟩
  · rw [if_neg hvalues]
    have hiff := search_isEmpty_iff (s := s) hsearch text.toList
    simp only [new_plain h]
    cases hempty : (search (s.values.map SecretValue.bytes)
        (Utf8.encode text.toList)).isEmpty with
    | true =>
      rw [hempty] at hiff
      refine ⟨false, rfl, ?_⟩
      simpa [Contains] using hiff
    | false =>
      refine ⟨true, rfl, ?_⟩
      simpa [Contains] using hiff.mp hempty

/-- The text of an integer is a sign and digits. -/
theorem integer_plain (i : Int) : '\\' ∉ (toString i).toList := by
  have hdigits : ∀ n : Nat, '\\' ∉ n.repr.toList := by
    intro n hmem
    rw [Nat.toList_repr] at hmem
    have hdigit := Nat.isDigit_of_mem_toDigits (by decide) (by decide) hmem
    exact absurd hdigit (by decide)
  cases i with
  | ofNat n => exact hdigits n
  | negSucc n =>
    show '\\' ∉ ("-" ++ (n + 1).repr).toList
    rw [String.toList_append, List.mem_append, not_or]
    exact ⟨by decide, hdigits (n + 1)⟩

/-- A number is replaced exactly if its text contains a value. -/
theorem redactNumber_keeps (hsearch : Reports search) {text : String} (h : '\\' ∉ text.toList)
    (number : Json) : ∃ out, s.redactNumber search text number = some out ∧
      KeepsNumber s text number out := by
  obtain ⟨found, hfound, hiff⟩ := foundIn_plain (s := s) hsearch h
  unfold Secrets.redactNumber
  by_cases hlong : minSecretChars ≤ (Utf8.encode text.toList).length
  · rw [if_pos hlong, hfound, Option.map_some]
    cases found with
    | true => exact ⟨_, rfl, Or.inl ⟨hiff.mp rfl, rfl⟩⟩
    | false =>
      have hnot : ¬Contains s text := fun hcontains => Bool.false_ne_true (hiff.mpr hcontains)
      exact ⟨_, rfl, Or.inr ⟨hnot, rfl⟩⟩
  · rw [if_neg hlong]
    exact ⟨_, rfl, Or.inr ⟨fun hcontains => hlong hcontains.long, rfl⟩⟩

end texts

/-! ### The result -/

section result

variable {search : Search} {s : Secrets}

theorem redactJson_empty (hvalues : s.values.isEmpty = true) (value : Json) :
    s.redactJson search value = some value := by
  rw [Secrets.redactJson.eq_def, if_pos hvalues]

theorem redactItems_empty (hvalues : s.values.isEmpty = true) (items : List Json) :
    s.redactItems search items = some items := by
  induction items with
  | nil => rw [Secrets.redactItems]
  | cons item items ih =>
    rw [Secrets.redactItems, redactJson_empty hvalues, Option.bind_some, ih, Option.map_some]

theorem redactMembers_empty (hvalues : s.values.isEmpty = true)
    (members : List (String × Json)) : s.redactMembers search members = some members := by
  induction members with
  | nil => rw [Secrets.redactMembers]
  | cons m members ih =>
    obtain ⟨key, value⟩ := m
    rw [Secrets.redactMembers, redactJson_empty hvalues, Option.bind_some,
      redactText_empty hvalues, Option.bind_some, ih, Option.map_some]

/-! With or without values, a value is redacted by its parts. -/

theorem redactJson_string (text : String) :
    s.redactJson search (.string text) = (s.redactText search text).map .string := by
  rw [Secrets.redactJson]
  by_cases hvalues : s.values.isEmpty = true
  · rw [if_pos hvalues, redactText_empty hvalues, Option.map_some]
  · rw [if_neg hvalues]

theorem redactNumber_empty (hvalues : s.values.isEmpty = true) (text : String) (number : Json) :
    s.redactNumber search text number = some number := by
  rw [Secrets.redactNumber, Secrets.foundIn, if_pos hvalues]
  split_ifs with hlong
  · rfl
  · rfl

theorem redactJson_integer (i : Int) :
    s.redactJson search (.integer i) = s.redactNumber search (toString i) (.integer i) := by
  rw [Secrets.redactJson]
  by_cases hvalues : s.values.isEmpty = true
  · rw [if_pos hvalues, redactNumber_empty hvalues]
  · rw [if_neg hvalues]

theorem redactJson_decimal (text : String) :
    s.redactJson search (.decimal text) = s.redactNumber search text (.decimal text) := by
  rw [Secrets.redactJson]
  by_cases hvalues : s.values.isEmpty = true
  · rw [if_pos hvalues, redactNumber_empty hvalues]
  · rw [if_neg hvalues]

theorem redactJson_array (items : List Json) :
    s.redactJson search (.array items) = (s.redactItems search items).map .array := by
  rw [Secrets.redactJson]
  by_cases hvalues : s.values.isEmpty = true
  · rw [if_pos hvalues, redactItems_empty hvalues, Option.map_some]
  · rw [if_neg hvalues]

theorem redactJson_object {members : List (String × Json)}
    (h : members.Pairwise fun m m' => m.1 < m'.1) :
    s.redactJson search (.object members) =
      (s.redactMembers search members).map fun members =>
        .object (SortedMap.ofList members).entries := by
  rw [Secrets.redactJson]
  by_cases hvalues : s.values.isEmpty = true
  · have hentries : (SortedMap.ofList members).entries = members :=
      SortedMap.entries_ofList_sorted h
    rw [if_pos hvalues, redactMembers_empty hvalues, Option.map_some, hentries]
  · rw [if_neg hvalues]

/-- The keys of members that are kept are the redacted ones. -/
theorem KeepsMembers.keys {members placed : List (String × Json)}
    (h : KeepsMembers search s members placed) :
    (members.map Prod.fst).map (s.redactText search) = (placed.map Prod.fst).map some := by
  induction members generalizing placed with
  | nil =>
    rw [KeepsMembers] at h
    rw [h]
    rfl
  | cons m members ih =>
    obtain ⟨key, value⟩ := m
    rw [KeepsMembers] at h
    obtain ⟨redacted, out, rest, rfl, hkey, -, hrest⟩ := h
    simp only [List.map_cons, hkey, ih hrest]

/-- The redacted members, before they are collected. -/
theorem redactMembers_keys {members placed : List (String × Json)}
    (h : s.redactMembers search members = some placed) :
    (members.map Prod.fst).map (s.redactText search) = (placed.map Prod.fst).map some := by
  induction members generalizing placed with
  | nil =>
    rw [Secrets.redactMembers] at h
    obtain rfl := Option.some.inj h
    rfl
  | cons m members ih =>
    obtain ⟨key, value⟩ := m
    rw [Secrets.redactMembers] at h
    obtain ⟨out, -, h⟩ := Option.bind_eq_some_iff.mp h
    obtain ⟨redacted, hkey, h⟩ := Option.bind_eq_some_iff.mp h
    obtain ⟨rest, hrest, rfl⟩ := Option.map_eq_some_iff.mp h
    simp only [List.map_cons, hkey, ih hrest]

/-- The collected members are all there exactly if the redacted keys are apart. -/
theorem keeps_object_iff {members placed : List (String × Json)}
    (hplaced : s.redactMembers search members = some placed)
    (hiff : KeepsMembers search s members placed ↔ KeysApartMembers search s members) :
    Keeps search s (.object members) (.object (SortedMap.ofList placed).entries) ↔
      KeysApart search s (.object members) := by
  have hkeys := redactMembers_keys hplaced
  have hnodup : ((members.map Prod.fst).map (s.redactText search)).Nodup ↔
      (placed.map Prod.fst).Nodup := by
    rw [hkeys]
    exact List.nodup_map_iff (Option.some_injective _)
  rw [Keeps, KeysApart, hnodup, ← hiff]
  constructor
  · intro h
    obtain ⟨outs, heq, other, hother, hperm⟩ := h
    obtain rfl := Json.object.inj heq
    -- the members that are kept are the ones that were collected
    have hsame : other.map Prod.fst = placed.map Prod.fst :=
      List.map_injective_iff.mpr (Option.some_injective _) (hother.keys.symm.trans hkeys)
    have hapart : (placed.map Prod.fst).Nodup := by
      rw [← hsame]
      exact (SortedMap.ofList placed).keys_nodup.perm (hperm.map Prod.fst)
    have hall := (SortedMap.entries_ofList_perm_iff.mpr hapart).symm.trans hperm
    have hequal : placed = other := Objects.eq_of_perm_keys hall hsame.symm hapart
    exact ⟨hapart, hequal ▸ hother⟩
  · intro h
    obtain ⟨hapart, hmembers⟩ := h
    exact ⟨_, rfl, placed, hmembers, SortedMap.entries_ofList_perm_iff.mpr hapart⟩

mutual

/-- Every value is redacted. -/
theorem exists_redactJson (hsearch : Reports search) : ∀ value : Json, value.Proper →
    ∃ out, s.redactJson search value = some out
  | .null, _ | .bool _, _ => by
    rw [Secrets.redactJson.eq_def]
    split_ifs <;> exact ⟨_, rfl⟩
  | .integer i, _ => by
    obtain ⟨out, hout, -⟩ := redactNumber_keeps (s := s) hsearch (integer_plain i) (.integer i)
    exact ⟨out, (redactJson_integer i).trans hout⟩
  | .decimal text, h => by
    rw [Json.Proper] at h
    obtain ⟨out, hout, -⟩ := redactNumber_keeps (s := s) hsearch h (.decimal text)
    exact ⟨out, (redactJson_decimal text).trans hout⟩
  | .string text, _ => by
    obtain ⟨out, hout⟩ := exists_redactText hsearch s text
    exact ⟨.string out, by rw [redactJson_string, hout, Option.map_some]⟩
  | .array items, h => by
    rw [Json.Proper] at h
    obtain ⟨outs, houts⟩ := exists_redactItems hsearch items h
    exact ⟨.array outs, by rw [redactJson_array, houts, Option.map_some]⟩
  | .object members, h => by
    rw [Json.Proper] at h
    obtain ⟨placed, hplaced⟩ := exists_redactMembers hsearch members h.2
    exact ⟨_, by rw [redactJson_object h.1, hplaced, Option.map_some]⟩

theorem exists_redactItems (hsearch : Reports search) : ∀ items : List Json, ProperItems items →
    ∃ outs, s.redactItems search items = some outs
  | [], _ => ⟨[], by rw [Secrets.redactItems]⟩
  | item :: items, h => by
    rw [ProperItems] at h
    obtain ⟨out, hout⟩ := exists_redactJson hsearch item h.1
    obtain ⟨outs, houts⟩ := exists_redactItems hsearch items h.2
    exact ⟨out :: outs, by rw [Secrets.redactItems, hout, Option.bind_some, houts, Option.map_some]⟩

theorem exists_redactMembers (hsearch : Reports search) : ∀ members : List (String × Json),
    ProperMembers members → ∃ placed, s.redactMembers search members = some placed
  | [], _ => ⟨[], by rw [Secrets.redactMembers]⟩
  | (key, value) :: members, h => by
    rw [ProperMembers] at h
    obtain ⟨out, hout⟩ := exists_redactJson hsearch value h.1
    obtain ⟨redacted, hkey⟩ := exists_redactText hsearch s key
    obtain ⟨placed, hplaced⟩ := exists_redactMembers hsearch members h.2
    refine ⟨(redacted, out) :: placed, ?_⟩
    rw [Secrets.redactMembers, hout, Option.bind_some, hkey, Option.bind_some, hplaced,
      Option.map_some]

end

mutual

/-- A redacted value has all the data exactly if the keys are apart. -/
theorem keeps_iff (hsearch : Reports search) : ∀ value out : Json, value.Proper →
    s.redactJson search value = some out →
      (Keeps search s value out ↔ KeysApart search s value)
  | .null, out, _, hout | .bool _, out, _, hout => by
    rw [Secrets.redactJson.eq_def] at hout
    simp only [ite_self, Option.some.injEq] at hout
    simp only [Keeps, KeysApart, iff_true]
    exact hout.symm
  | .integer i, out, _, hout => by
    obtain ⟨out', hout', hkeeps⟩ :=
      redactNumber_keeps (s := s) hsearch (integer_plain i) (.integer i)
    obtain rfl := Option.some.inj (hout.symm.trans ((redactJson_integer i).trans hout'))
    simpa only [Keeps, KeysApart, iff_true] using hkeeps
  | .decimal text, out, h, hout => by
    rw [Json.Proper] at h
    obtain ⟨out', hout', hkeeps⟩ := redactNumber_keeps (s := s) hsearch h (.decimal text)
    obtain rfl := Option.some.inj (hout.symm.trans ((redactJson_decimal text).trans hout'))
    simpa only [Keeps, KeysApart, iff_true] using hkeeps
  | .string text, out, _, hout => by
    rw [redactJson_string] at hout
    obtain ⟨redacted, hredacted, rfl⟩ := Option.map_eq_some_iff.mp hout
    simp only [Keeps, KeysApart, iff_true]
    exact ⟨redacted, hredacted, rfl⟩
  | .array items, out, h, hout => by
    rw [Json.Proper] at h
    rw [redactJson_array] at hout
    obtain ⟨outs, houts, rfl⟩ := Option.map_eq_some_iff.mp hout
    rw [Keeps, KeysApart, ← keepsItems_iff hsearch items outs h houts]
    constructor
    · intro hkeeps
      obtain ⟨outs', heq, hkeeps⟩ := hkeeps
      rw [Json.array.inj heq]
      exact hkeeps
    · intro hkeeps
      exact ⟨outs, rfl, hkeeps⟩
  | .object members, out, h, hout => by
    rw [Json.Proper] at h
    rw [redactJson_object h.1] at hout
    obtain ⟨placed, hplaced, rfl⟩ := Option.map_eq_some_iff.mp hout
    exact keeps_object_iff hplaced (keepsMembers_iff hsearch members placed h.2 hplaced)

theorem keepsItems_iff (hsearch : Reports search) : ∀ items outs : List Json,
    ProperItems items → s.redactItems search items = some outs →
      (KeepsItems search s items outs ↔ KeysApartItems search s items)
  | [], outs, _, houts => by
    rw [Secrets.redactItems] at houts
    obtain rfl := Option.some.inj houts
    simp only [KeepsItems, KeysApartItems]
  | item :: items, outs, h, houts => by
    rw [ProperItems] at h
    rw [Secrets.redactItems] at houts
    obtain ⟨out, hout, houts⟩ := Option.bind_eq_some_iff.mp houts
    obtain ⟨rest, hrest, rfl⟩ := Option.map_eq_some_iff.mp houts
    rw [KeepsItems, KeysApartItems, ← keeps_iff hsearch item out h.1 hout,
      ← keepsItems_iff hsearch items rest h.2 hrest]
    constructor
    · intro hkeeps
      obtain ⟨out', rest', heq, hkeeps⟩ := hkeeps
      obtain ⟨rfl, rfl⟩ := List.cons.inj heq
      exact hkeeps
    · intro hkeeps
      exact ⟨out, rest, rfl, hkeeps⟩

theorem keepsMembers_iff (hsearch : Reports search) : ∀ members placed : List (String × Json),
    ProperMembers members → s.redactMembers search members = some placed →
      (KeepsMembers search s members placed ↔ KeysApartMembers search s members)
  | [], placed, _, hplaced => by
    rw [Secrets.redactMembers] at hplaced
    obtain rfl := Option.some.inj hplaced
    simp only [KeepsMembers, KeysApartMembers]
  | (key, value) :: members, placed, h, hplaced => by
    rw [ProperMembers] at h
    rw [Secrets.redactMembers] at hplaced
    obtain ⟨out, hout, hplaced⟩ := Option.bind_eq_some_iff.mp hplaced
    obtain ⟨redacted, hkey, hplaced⟩ := Option.bind_eq_some_iff.mp hplaced
    obtain ⟨rest, hrest, rfl⟩ := Option.map_eq_some_iff.mp hplaced
    rw [KeepsMembers, KeysApartMembers, ← keeps_iff hsearch value out h.1 hout,
      ← keepsMembers_iff hsearch members rest h.2 hrest]
    constructor
    · intro hkeeps
      obtain ⟨redacted', out', rest', heq, -, hkeeps⟩ := hkeeps
      obtain ⟨hfirst, rfl⟩ := List.cons.inj heq
      obtain ⟨-, rfl⟩ := Prod.mk.inj hfirst
      exact hkeeps
    · intro hkeeps
      exact ⟨redacted, out, rest, rfl, hkey, hkeeps⟩

end

/-- `redact_json` keeps all data of a value exactly if no object of it has two keys
    with one redaction. -/
theorem redactJson_keeps_iff (hsearch : Reports search) (s : Secrets) {value : Json}
    (hproper : value.Proper) :
    ∃ out, s.redactJson search value = some out ∧
      (Keeps search s value out ↔ KeysApart search s value) := by
  obtain ⟨out, hout⟩ := exists_redactJson (s := s) hsearch value hproper
  exact ⟨out, hout, keeps_iff hsearch value out hproper hout⟩

end result

/-- Two members whose keys are the value, once and twice. -/
def twoMembers : Json := .object [("abcdef", .integer 1), ("abcdefabcdef", .integer 2)]

theorem twoMembers_proper : twoMembers.Proper := by
  unfold twoMembers
  simp only [Json.Proper, ProperMembers, List.pairwise_cons, List.mem_singleton, forall_eq]
  decide

theorem redactJson_keeps_iff_twoMembers :
    ∃ out, onePassword.redactJson tryAll twoMembers = some out ∧
      (Keeps tryAll onePassword twoMembers out ↔ KeysApart tryAll onePassword twoMembers) :=
  redactJson_keeps_iff reports_tryAll onePassword twoMembers_proper

/-- Only the later one is left of them. -/
theorem redactJson_drops :
    onePassword.redactJson tryAll twoMembers = some (.object [("[redacted]", .integer 2)]) ∧
      ¬Keeps tryAll onePassword twoMembers (.object [("[redacted]", .integer 2)]) := by
  constructor
  · rfl
  · intro h
    rw [twoMembers, Keeps] at h
    obtain ⟨outs, heq, placed, hplaced, hperm⟩ := h
    -- one member cannot be a rearrangement of two
    have hkeys := congrArg List.length hplaced.keys
    have hlength := hperm.length_eq
    rw [← Json.object.inj heq] at hlength
    simp only [List.length_map, List.length_cons, List.length_nil] at hkeys hlength
    omega

end Kyora
