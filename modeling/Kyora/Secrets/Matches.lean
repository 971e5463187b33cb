import Kyora.Secrets.Scan

/-! # The matches of a text

  A value occurs in a text, in the text with its escapes decoded, and, when the
  text was cut, in the text decoded as if one backslash came before it. Matches
  of the decoded texts are mapped back to the text. The streams are merged in the
  order of the ends of the matches.
-/

namespace Kyora

/-- In the order of their ends. -/
def Ordered (ranges : List Range) : Prop := ranges.Pairwise fun r r' => r.2 ≤ r'.2

/-! ### Merging the streams -/

section merge

variable {streams rest : List (List Range)} {x : Range}

/-- The first match of a stream goes first, or a later stream has one that ends
    before it. -/
theorem nextMatch_cons (first : Range) (stream : List Range) (streams : List (List Range)) :
    (nextMatch ((first :: stream) :: streams) = some (first, stream :: streams) ∧
      ∀ other streams', nextMatch streams = some (other, streams') → first.2 ≤ other.2) ∨
    ∃ other streams', nextMatch streams = some (other, streams') ∧ other.2 < first.2 ∧
      nextMatch ((first :: stream) :: streams) = some (other, (first :: stream) :: streams') := by
  cases hnext : nextMatch streams with
  | none =>
    refine Or.inl ⟨?_, fun other streams' h => by cases h⟩
    rw [nextMatch, hnext]
  | some found =>
    obtain ⟨other, streams'⟩ := found
    have hstep : nextMatch ((first :: stream) :: streams) =
        if other.2 < first.2 then some (other, (first :: stream) :: streams')
        else some (first, stream :: streams) := by
      rw [nextMatch, hnext]
    by_cases hlt : other.2 < first.2
    · rw [if_pos hlt] at hstep
      exact Or.inr ⟨other, streams', rfl, hlt, hstep⟩
    · rw [if_neg hlt] at hstep
      refine Or.inl ⟨hstep, ?_⟩
      intro other' streams'' h
      obtain ⟨rfl, -⟩ := Prod.mk.inj (Option.some.inj h)
      omega

theorem nextMatch_none (h : nextMatch streams = none) : streams.flatten = [] := by
  induction streams with
  | nil => rfl
  | cons stream streams ih =>
    cases stream with
    | nil => exact ih (Option.map_eq_none_iff.mp h)
    | cons first stream =>
      rcases nextMatch_cons first stream streams with ⟨hfirst, -⟩ | ⟨_, _, -, -, hother⟩
      · rw [hfirst] at h
        cases h
      · rw [hother] at h
        cases h

/-- The next match is one of the matches, none of them ends before it, and the
    others are left in their order. -/
theorem nextMatch_some (h : nextMatch streams = some (x, rest))
    (hordered : ∀ stream ∈ streams, Ordered stream) :
    (x :: rest.flatten).Perm streams.flatten ∧ (∀ stream ∈ rest, Ordered stream) ∧
      ∀ y ∈ streams.flatten, x.2 ≤ y.2 := by
  induction streams generalizing x rest with
  | nil => cases h
  | cons stream streams ih =>
    obtain ⟨hstream, hstreams⟩ := List.forall_mem_cons.mp hordered
    cases stream with
    | nil =>
      obtain ⟨⟨x', rest'⟩, hnext, heq⟩ := Option.map_eq_some_iff.mp h
      obtain ⟨rfl, rfl⟩ := Prod.mk.inj heq
      obtain ⟨hperm, hrest, hle⟩ := ih hnext hstreams
      exact ⟨hperm, List.forall_mem_cons.mpr ⟨hstream, hrest⟩, hle⟩
    | cons first stream =>
      obtain ⟨hfirst, htail⟩ := List.pairwise_cons.mp hstream
      have hhead : ∀ y ∈ first :: stream, first.2 ≤ y.2 :=
        List.forall_mem_cons.mpr ⟨Nat.le_refl _, hfirst⟩
      rcases nextMatch_cons first stream streams with
        ⟨hstep, hleast⟩ | ⟨other, streams', hnext, hlt, hstep⟩
      · obtain ⟨rfl, rfl⟩ := Prod.mk.inj (Option.some.inj (hstep.symm.trans h))
        refine ⟨List.Perm.refl _, List.forall_mem_cons.mpr ⟨htail, hstreams⟩, ?_⟩
        refine List.forall_mem_append.mpr ⟨hhead, ?_⟩
        intro y hy
        cases hnext : nextMatch streams with
        | none =>
          rw [nextMatch_none hnext] at hy
          exact absurd hy List.not_mem_nil
        | some found =>
          obtain ⟨other, streams'⟩ := found
          obtain ⟨-, -, hle⟩ := ih hnext hstreams
          have hother := hleast other streams' hnext
          have hy' := hle y hy
          omega
      · -- the later stream goes first
        obtain ⟨rfl, rfl⟩ := Prod.mk.inj (Option.some.inj (hstep.symm.trans h))
        obtain ⟨hperm, hrest, hle⟩ := ih hnext hstreams
        refine ⟨?_, List.forall_mem_cons.mpr ⟨hstream, hrest⟩, ?_⟩
        · exact List.perm_middle.symm.trans (hperm.append_left (first :: stream))
        · refine List.forall_mem_append.mpr ⟨?_, hle⟩
          intro y hy
          have hfirst' := hhead y hy
          omega

/-- All matches are taken, in the order of their ends. -/
theorem mergeMatches_spec (streams : List (List Range)) {fuel : Nat}
    (hfuel : streams.flatten.length ≤ fuel)
    (hordered : ∀ stream ∈ streams, Ordered stream) :
    (mergeMatches fuel streams).Perm streams.flatten ∧ Ordered (mergeMatches fuel streams) := by
  induction fuel generalizing streams with
  | zero =>
    rw [List.length_eq_zero_iff.mp (Nat.le_zero.mp hfuel)]
    exact ⟨List.Perm.refl _, List.Pairwise.nil⟩
  | succ fuel ih =>
    cases hnext : nextMatch streams with
    | none =>
      have hnil : mergeMatches (fuel + 1) streams = [] := by rw [mergeMatches, hnext]
      rw [hnil, nextMatch_none hnext]
      exact ⟨List.Perm.refl _, List.Pairwise.nil⟩
    | some found =>
      obtain ⟨x, rest⟩ := found
      obtain ⟨hperm, hrest, hle⟩ := nextMatch_some hnext hordered
      have hlength := hperm.length_eq
      rw [List.length_cons] at hlength
      obtain ⟨hmerged, hsorted⟩ := ih rest (by omega) hrest
      have hcons : mergeMatches (fuel + 1) streams = x :: mergeMatches fuel rest := by
        rw [mergeMatches, hnext]
      have hwhole := (hmerged.cons x).trans hperm
      rw [hcons]
      refine ⟨hwhole, List.pairwise_cons.mpr ⟨?_, hsorted⟩⟩
      intro y hy
      exact hle y (hwhole.subset (List.mem_cons_of_mem x hy))

end merge

/-! ### Occurrences -/

/-- A value in a text. -/
def Occurs (values : List (List UInt8)) (text : List UInt8) (r : Range) : Prop :=
  ∃ v ∈ values, ∃ before after, text = before ++ v ++ after ∧
    r = (before.length, before.length + v.length)

/-- What the automaton is relied on for: it reports every occurrence, in the order
    of the ends. -/
structure Reports (search : Search) : Prop where
  mem_iff : ∀ values text r, r ∈ search values text ↔ Occurs values text r
  ordered : ∀ values text, Ordered (search values text)

/-- A value in the decoded text: the range of the text that it is decoded from. -/
def OccursDecoded (s : Secrets) (text : List UInt8) (r : Range) : Prop :=
  ∃ before found after, Scan text (before ++ found ++ after) ∧
    (∃ v ∈ s.values, decodedBy found = v.text) ∧ r = (usedBy before, usedBy (before ++ found))

/-- A range of a text with a backslash in front, in the text. -/
def withoutLead (r : Range) : Range := (r.1 - 1, r.2 - 1)

/-- The occurrences that are redacted. -/
def Secret (s : Secrets) (text : List UInt8) (cut : Bool) (r : Range) : Prop :=
  Occurs (s.values.map SecretValue.bytes) text r ∨ OccursDecoded s text r ∨
    cut = true ∧ ∃ r', OccursDecoded s (0x5C :: text) r' ∧ r = withoutLead r'

section values

variable {s : Secrets} {v : SecretValue}

theorem SecretValue.text_ne_nil (v : SecretValue) : v.text ≠ [] := by
  have hlong := v.long
  have hmin : minSecretChars = 6 := rfl
  exact List.ne_nil_of_length_pos (by omega)

theorem Secrets.length_le_longest (hv : v ∈ s.values) : v.bytes.length ≤ s.longest := by
  have hfold : ∀ (xs : List Nat) (n : Nat), n ≤ xs.foldl max n ∧
      ∀ x ∈ xs, x ≤ xs.foldl max n := by
    intro xs
    induction xs with
    | nil => exact fun n => ⟨Nat.le_refl n, by simp⟩
    | cons x xs ih =>
      intro n
      obtain ⟨hle, hall⟩ := ih (max n x)
      refine ⟨by rw [List.foldl_cons]; omega, List.forall_mem_cons.mpr ⟨?_, hall⟩⟩
      rw [List.foldl_cons]
      omega
  exact (hfold _ 0).2 _ (List.mem_map_of_mem hv)

end values

section occurrences

variable {s : Secrets} {text : List Char} {r : Range}

/-- An occurrence is a value between two characters. -/
theorem Occurs.split (h : Occurs (s.values.map SecretValue.bytes) (Utf8.encode text) r) :
    ∃ v ∈ s.values, ∃ before after, text = before ++ v.text ++ after ∧
      r = ((Utf8.encode before).length, (Utf8.encode (before ++ v.text)).length) := by
  obtain ⟨bytes, hbytes, pre, post, heq, rfl⟩ := h
  obtain ⟨v, hv, rfl⟩ := List.mem_map.mp hbytes
  obtain ⟨before, after, htext, rfl, rfl⟩ := Utf8.exists_split v.text_ne_nil heq
  refine ⟨v, hv, before, after, htext, ?_⟩
  rw [Utf8.encode_append, List.length_append]
  rfl

theorem Occurs.of_split {v : SecretValue} (hv : v ∈ s.values) (before after : List Char) :
    Occurs (s.values.map SecretValue.bytes) (Utf8.encode (before ++ v.text ++ after))
      ((Utf8.encode before).length, (Utf8.encode (before ++ v.text)).length) := by
  refine ⟨v.bytes, List.mem_map_of_mem hv, Utf8.encode before, Utf8.encode after, ?_, ?_⟩
  · rw [Utf8.encode_append, Utf8.encode_append]
    rfl
  · rw [Utf8.encode_append, List.length_append]
    rfl

/-- The tokens of a text that is scanned already. -/
theorem occursDecoded_iff {ts : List Token} (hscan : Scan (Utf8.encode text) ts) :
    OccursDecoded s (Utf8.encode text) r ↔ ∃ before found after, ts = before ++ found ++ after ∧
      (∃ v ∈ s.values, decodedBy found = v.text) ∧
      r = (usedBy before, usedBy (before ++ found)) := by
  constructor
  · rintro ⟨before, found, after, hscan', hrest⟩
    exact ⟨before, found, after, hscan.unique hscan', hrest⟩
  · rintro ⟨before, found, after, rfl, hrest⟩
    exact ⟨before, found, after, hscan, hrest⟩

/-- What a decoded occurrence spans. -/
theorem OccursDecoded.bounds (h : OccursDecoded s (Utf8.encode text) r) :
    r.1 + minSecretChars ≤ r.2 ∧ r.2 ≤ r.1 + s.reach ∧
      ∃ before found after, text = before ++ found ++ after ∧
        r = ((Utf8.encode before).length, (Utf8.encode (before ++ found)).length) := by
  obtain ⟨before, found, after, hscan, ⟨v, hv, hfound⟩, rfl⟩ := h
  have hlong : minSecretChars ≤ found.length := by
    have hlength := congrArg List.length hfound
    rw [decodedBy, List.length_map] at hlength
    rw [hlength]
    exact v.long
  have hused := hscan.usedBy_pos
  rw [List.append_assoc] at hscan
  obtain ⟨x, rest, rfl, hx, hrest⟩ := hscan.split
  have hgrowth := hrest.growth
  have hlongest := Nat.mul_le_mul_left Secrets.escapeGrowth (Secrets.length_le_longest hv)
  rw [hfound] at hgrowth
  obtain ⟨y, z, rfl, hy, -⟩ := hrest.split
  have hreach : s.reach = Secrets.escapeGrowth * s.longest := Nat.mul_comm _ _
  have hvalue : Utf8.encode v.text = v.bytes := rfl
  rw [hvalue] at hgrowth
  refine ⟨?_, ?_, x, y, z, (List.append_assoc ..).symm, ?_⟩
  · show usedBy before + _ ≤ usedBy (before ++ found)
    rw [usedBy_append]
    omega
  · show usedBy (before ++ found) ≤ usedBy before + _
    rw [usedBy_append]
    omega
  · rw [Utf8.encode_append, List.length_append, hx, hy, usedBy_append]

/-- A token that is no escape is the first character of the text. -/
theorem nextToken_plain {t : Token} (hnext : nextToken (Utf8.encode text) = some t)
    (hescape : unescape (Utf8.encode text) = none) :
    t.used = t.char.utf8Size ∧ ∃ rest, text = t.char :: rest := by
  rw [nextToken, hescape] at hnext
  obtain ⟨x, hx, rfl⟩ := Option.map_eq_some_iff.mp hnext
  obtain ⟨rest, hrest⟩ : [x.1] <+: text :=
    Utf8.isPrefix_of_encode ⟨x.2, by rw [Utf8.decodeChar_some hx]; simp⟩
  exact ⟨rfl, rest, hrest.symm⟩

/-- A token of a text that starts with no backslash is copied. -/
theorem nextToken_copied {t : Token} (hnext : nextToken (Utf8.encode text) = some t)
    (hplain : (0x5C : UInt8) ∉ Utf8.encode text) :
    t.used = t.char.utf8Size ∧ ∃ rest, text = t.char :: rest := by
  have hescape : unescape (Utf8.encode text) = none := by
    unfold unescape
    split
    · next hbytes => exact absurd (hbytes ▸ List.mem_cons_self) hplain
    · rfl
  exact nextToken_plain hnext hescape

/-- Text without a backslash is copied. -/
theorem Scan.copied {ts : List Token} (h : Scan (Utf8.encode text) ts)
    (hplain : (0x5C : UInt8) ∉ Utf8.encode text) : decodedBy ts = text ∧
      ∀ before after, ts = before ++ after →
        usedBy before = (Utf8.encode (decodedBy before)).length := by
  induction ts generalizing text with
  | nil =>
    refine ⟨(Scan.nil_iff.mp h).symm, ?_⟩
    intro before after heq
    obtain ⟨rfl, -⟩ := List.append_eq_nil_iff.mp heq.symm
    rfl
  | cons t ts ih =>
    obtain ⟨first, rest, hnext, hpiece, hrest⟩ := Scan.cons_iff.mp h
    obtain ⟨hused, others, hothers⟩ := nextToken_copied hnext hplain
    have hafter : Utf8.encode rest = Utf8.encode others := by
      rw [← hpiece.drop, hused, hothers, Utf8.encode_cons, ← String.length_utf8EncodeChar,
        List.drop_left]
    obtain rfl := Utf8.encode_injective hafter
    rw [hothers, Utf8.encode_cons, List.mem_append] at hplain
    obtain ⟨hdecoded, hlater⟩ := ih hrest (fun hmem => hplain (Or.inr hmem))
    refine ⟨by rw [decodedBy_cons, hdecoded, hothers], ?_⟩
    intro before after heq
    cases before with
    | nil => rfl
    | cons t' before =>
      obtain ⟨rfl, htail⟩ := List.cons.inj heq
      rw [usedBy_cons, length_encode_decodedBy, hused, hlater before after htail]

end occurrences

/-! ### Decoded views -/

section views

variable {search : Search} {s : Secrets} {text : List Char} {ts : List Token}

/-- Later decoded positions come from later positions. -/
theorem usedBy_mono {before after before' after' : List Token}
    (h : before ++ after = before' ++ after')
    (hle : (Utf8.encode (decodedBy before)).length ≤ (Utf8.encode (decodedBy before')).length) :
    usedBy before ≤ usedBy before' := by
  rcases List.append_eq_append_iff.mp h with ⟨more, rfl, -⟩ | ⟨more, rfl, -⟩
  · rw [usedBy_append]
    omega
  · rw [decodedBy_append, Utf8.encode_append, List.length_append] at hle
    have hnil : Utf8.encode (decodedBy more) = [] := List.length_eq_zero_iff.mp (by omega)
    have hmore : more = [] := List.map_eq_nil_iff.mp (Utf8.encode_eq_nil hnil)
    exact Nat.le_of_eq (by rw [hmore, List.append_nil])

/-- A match of the decoded text is what some tokens are decoded to. -/
theorem occurs_decoded {r : Range}
    (h : Occurs (s.values.map SecretValue.bytes) (Utf8.encode (decodedBy ts)) r) :
    ∃ before found after, ts = before ++ found ++ after ∧
      (∃ v ∈ s.values, decodedBy found = v.text) ∧
      r = ((Utf8.encode (decodedBy before)).length,
        (Utf8.encode (decodedBy (before ++ found))).length) := by
  obtain ⟨v, hv, pre, post, heq, rfl⟩ := h.split
  obtain ⟨front, after, rfl, hfront, -⟩ := List.map_eq_append_iff.mp heq
  obtain ⟨before, found, rfl, rfl, hfound⟩ := List.map_eq_append_iff.mp hfront
  refine ⟨before, found, after, rfl, ⟨v, hv, hfound⟩, ?_⟩
  rw [decodedBy_append, show decodedBy found = v.text from hfound]
  rfl

/-- The origins of a match of the decoded text. -/
theorem original_eq {before found after : List Token} {move : Nat → Nat} {decoded : List UInt8}
    (hts : ts = before ++ found ++ after) :
    Decoded.original ⟨decoded, (originsOf 0 ts).map move⟩
        ((Utf8.encode (decodedBy before)).length,
          (Utf8.encode (decodedBy (before ++ found))).length) =
      some (move (usedBy before), move (usedBy (before ++ found))) := by
  have hstart := getElem?_originsOf before (found ++ after) 0
  have hstop := getElem?_originsOf (before ++ found) after 0
  rw [← List.append_assoc, ← hts, Nat.zero_add] at hstart
  rw [← hts, Nat.zero_add] at hstop
  simp only [Decoded.original, List.getElem?_map, hstart, hstop, Option.map_some,
    Option.bind_eq_bind, Option.bind_some]
  rfl

theorem mapM_eq_map {α β : Type} {f : α → Option β} {g : α → β} {xs : List α}
    (h : ∀ x ∈ xs, f x = some (g x)) : xs.mapM f = some (xs.map g) := by
  induction xs with
  | nil => rfl
  | cons x xs ih =>
    obtain ⟨hx, hxs⟩ := List.forall_mem_cons.mp h
    rw [List.mapM_cons, hx, ih hxs]
    rfl

/-- The matches of a decoded view are the decoded occurrences, in the order of
    their ends. -/
theorem view_matches (hsearch : Reports search) (hscan : Scan (Utf8.encode text) ts)
    (move : Nat → Nat) (hmove : ∀ i j, i ≤ j → move i ≤ move j) {view : Decoded}
    (hview : view = ⟨Utf8.encode (decodedBy ts), (originsOf 0 ts).map move⟩) :
    ∃ found, (search (s.values.map SecretValue.bytes) view.text).mapM view.original = some found ∧
      Ordered found ∧ ∀ r, r ∈ found ↔ ∃ r', OccursDecoded s (Utf8.encode text) r' ∧
        r = (move r'.1, move r'.2) := by
  subst hview
  let back : Range → Range := fun r =>
    ((((originsOf 0 ts).map move)[r.1]?).getD 0, (((originsOf 0 ts).map move)[r.2]?).getD 0)
  have horigin : ∀ {r r' : Range}, Decoded.original
      ⟨Utf8.encode (decodedBy ts), (originsOf 0 ts).map move⟩ r = some r' → back r = r' := by
    intro r r' h
    obtain ⟨a, ha, h⟩ := Option.bind_eq_some_iff.mp h
    obtain ⟨b, hb, h⟩ := Option.bind_eq_some_iff.mp h
    rw [← Option.some.inj h]
    simp only [back]
    rw [show ((originsOf 0 ts).map move)[r.1]? = some a from ha,
      show ((originsOf 0 ts).map move)[r.2]? = some b from hb]
    rfl
  refine ⟨(search (s.values.map SecretValue.bytes) (Utf8.encode (decodedBy ts))).map back,
    mapM_eq_map ?_, ?_, ?_⟩
  · intro r hr
    obtain ⟨before, found, after, hts, -, rfl⟩ := occurs_decoded ((hsearch.mem_iff ..).mp hr)
    rw [original_eq hts, horigin (original_eq hts)]
  · refine List.pairwise_map.mpr ((hsearch.ordered ..).imp_of_mem ?_)
    intro r r' hr hr' hle
    obtain ⟨before, found, after, hts, -, rfl⟩ := occurs_decoded ((hsearch.mem_iff ..).mp hr)
    obtain ⟨before', found', after', hts', -, rfl⟩ := occurs_decoded ((hsearch.mem_iff ..).mp hr')
    rw [horigin (original_eq hts), horigin (original_eq hts')]
    exact hmove _ _ (usedBy_mono (hts.symm.trans hts') hle)
  · intro r
    rw [List.mem_map]
    constructor
    · rintro ⟨r', hr', rfl⟩
      obtain ⟨before, found, after, hts, hfound, rfl⟩ := occurs_decoded ((hsearch.mem_iff ..).mp hr')
      rw [horigin (original_eq hts)]
      exact ⟨_, (occursDecoded_iff hscan).mpr ⟨before, found, after, hts, hfound, rfl⟩, rfl⟩
    · rintro ⟨r', hr', rfl⟩
      obtain ⟨before, found, after, hts, ⟨v, hv, hfound⟩, rfl⟩ := (occursDecoded_iff hscan).mp hr'
      refine ⟨_, (hsearch.mem_iff ..).mpr ?_, horigin (original_eq hts)⟩
      have hoccurs := Occurs.of_split hv (decodedBy before) (decodedBy after)
      rw [← hfound, ← decodedBy_append, ← decodedBy_append, ← hts] at hoccurs
      exact hoccurs

/-- Decoding a text that has something to decode. -/
theorem plain_eq (hscan : Scan (Utf8.encode text) ts)
    (hsize : (Utf8.encode text).length + 1 < 2 ^ 32) (hslash : (0x5C : UInt8) ∈ Utf8.encode text) :
    Decoded.plain (Utf8.encode text) =
      some (some ⟨Utf8.encode (decodedBy ts), originsOf 0 ts⟩) := by
  rw [Decoded.plain, if_neg (by omega), if_neg (not_not.mpr hslash),
    decodeLoop_eq hscan (Nat.le_refl _)]
  rfl

theorem encode_backslash (text : List Char) :
    Utf8.encode ('\\' :: text) = 0x5C :: Utf8.encode text := rfl

/-- The matches of the decoded text; without a backslash these are matches of the
    text itself. -/
theorem first_view (hsearch : Reports search) (s : Secrets) (text : List Char)
    (hsize : (Utf8.encode text).length + 1 < 2 ^ 32) :
    ∃ first found, Decoded.new (Utf8.encode text) false = some first ∧
      first.elim (found = []) (fun view =>
        (search (s.values.map SecretValue.bytes) view.text).mapM view.original = some found) ∧
      Ordered found ∧ (∀ r ∈ found, OccursDecoded s (Utf8.encode text) r) ∧
      ∀ r, OccursDecoded s (Utf8.encode text) r →
        r ∈ found ∨ Occurs (s.values.map SecretValue.bytes) (Utf8.encode text) r := by
  obtain ⟨ts, hscan⟩ := exists_scan text
  have hnew : Decoded.new (Utf8.encode text) false = Decoded.plain (Utf8.encode text) := by
    rw [Decoded.new, if_neg (by omega), if_neg (by decide)]
  by_cases hslash : (0x5C : UInt8) ∈ Utf8.encode text
  · obtain ⟨found, hfound, hordered, hmem⟩ := view_matches (s := s) hsearch hscan id
      (fun i j hij => hij) rfl
    rw [List.map_id] at hfound
    refine ⟨some ⟨Utf8.encode (decodedBy ts), originsOf 0 ts⟩, found,
      hnew.trans (plain_eq hscan hsize hslash), hfound, hordered, ?_, ?_⟩
    · intro r hr
      obtain ⟨r', hr', rfl⟩ := (hmem r).mp hr
      exact hr'
    · intro r hr
      exact Or.inl ((hmem r).mpr ⟨r, hr, rfl⟩)
  · have hplain : Decoded.plain (Utf8.encode text) = some none := by
      rw [Decoded.plain, if_neg (by omega), if_pos hslash]
    refine ⟨none, [], hnew.trans hplain, rfl, List.Pairwise.nil, by simp, ?_⟩
    intro r hr
    obtain ⟨before, found, after, hts, ⟨v, hv, hfound⟩, rfl⟩ := (occursDecoded_iff hscan).mp hr
    obtain ⟨hwhole, hcopied⟩ := hscan.copied hslash
    have hoccurs := Occurs.of_split hv (decodedBy before) (decodedBy after)
    rw [← hfound, ← decodedBy_append, ← decodedBy_append, ← hts, hwhole,
      ← hcopied before (found ++ after) (by rw [hts, List.append_assoc]),
      ← hcopied (before ++ found) after hts] at hoccurs
    exact Or.inr hoccurs

/-- The matches of the text decoded with one more backslash. -/
theorem second_view (hsearch : Reports search) (s : Secrets) (text : List Char)
    (hsize : (Utf8.encode text).length + 2 < 2 ^ 32) :
    ∃ view found, Decoded.new (Utf8.encode text) true = some (some view) ∧
      (search (s.values.map SecretValue.bytes) view.text).mapM view.original = some found ∧
      Ordered found ∧ ∀ r, r ∈ found ↔
        ∃ r', OccursDecoded s (0x5C :: Utf8.encode text) r' ∧ r = withoutLead r' := by
  obtain ⟨ts, hscan⟩ := exists_scan ('\\' :: text)
  have hlength : (Utf8.encode ('\\' :: text)).length = (Utf8.encode text).length + 1 := by
    rw [encode_backslash, List.length_cons]
  have hplain := plain_eq hscan (by omega) (by rw [encode_backslash]; exact List.mem_cons_self)
  obtain ⟨found, hfound, hordered, hmem⟩ := view_matches (s := s) hsearch hscan
    (fun i => i - 1) (fun i j hij => Nat.sub_le_sub_right hij 1) rfl
  refine ⟨_, found, ?_, hfound, hordered, ?_⟩
  · rw [Decoded.new, if_neg (by omega), if_pos rfl, ← encode_backslash, hplain]
    rfl
  · rw [encode_backslash] at hmem
    exact hmem

/-- The streams of the decoded views. -/
theorem streams_eq {matches_ : Decoded → Option (List Range)} {first second : Option Decoded}
    {xs ys : List Range} (hfirst : first.elim (xs = []) fun view => matches_ view = some xs)
    (hsecond : second.elim (ys = []) fun view => matches_ view = some ys) (hxs : Ordered xs)
    (hys : Ordered ys) :
    ∃ streams, ([first, second].filterMap id).mapM matches_ = some streams ∧
      streams.flatten = xs ++ ys ∧ (∀ stream ∈ streams, Ordered stream) ∧
      (([first, second].filterMap id).isEmpty = true → xs = [] ∧ ys = []) := by
  cases first with
  | none =>
    obtain rfl : xs = [] := hfirst
    cases second with
    | none =>
      obtain rfl : ys = [] := hsecond
      exact ⟨[], rfl, rfl, by simp, fun _ => ⟨rfl, rfl⟩⟩
    | some view =>
      have hview : matches_ view = some ys := hsecond
      refine ⟨[ys], ?_, by simp, by simpa using hys, by simp⟩
      simp [hview]
  | some view =>
    have hview : matches_ view = some xs := hfirst
    cases second with
    | none =>
      obtain rfl : ys = [] := hsecond
      refine ⟨[xs], ?_, by simp, by simpa using hxs, by simp⟩
      simp [hview]
    | some view' =>
      have hview' : matches_ view' = some ys := hsecond
      refine ⟨[xs, ys], ?_, by simp, by simpa using ⟨hxs, hys⟩, by simp⟩
      simp [hview, hview']

/-- The matches that are pushed are the occurrences, in the order of their ends. -/
theorem findMatches_spec (hsearch : Reports search) (s : Secrets) (text : List Char) {cut : Bool}
    (hsize : (Utf8.encode text).length + 1 + cut.toNat < 2 ^ 32) :
    ∃ found, s.findMatches search (Utf8.encode text) cut = some found ∧ Ordered found ∧
      ∀ r, r ∈ found ↔ Secret s (Utf8.encode text) cut r := by
  obtain ⟨first, xs, hnew, hfirst, hxs, hxs', hxs''⟩ :=
    first_view hsearch s text (by omega)
  obtain ⟨second, ys, hnew', hsecond, hys, hys'⟩ : ∃ second ys,
      (if cut then Decoded.new (Utf8.encode text) true else some none) = some second ∧
      second.elim (ys = []) (fun view =>
        (search (s.values.map SecretValue.bytes) view.text).mapM view.original = some ys) ∧
      Ordered ys ∧ ∀ r, r ∈ ys ↔ cut = true ∧
        ∃ r', OccursDecoded s (0x5C :: Utf8.encode text) r' ∧ r = withoutLead r' := by
    cases cut with
    | false => exact ⟨none, [], rfl, rfl, List.Pairwise.nil, by simp⟩
    | true =>
      obtain ⟨view, ys, hnew', hsecond, hys, hys'⟩ :=
        second_view hsearch s text hsize
      refine ⟨some view, ys, hnew', hsecond, hys, ?_⟩
      simpa using hys'
  obtain ⟨streams, hstreams, hflat, hordered, hempty⟩ := streams_eq hfirst hsecond hxs hys
  have hraw := hsearch.mem_iff (s.values.map SecretValue.bytes) (Utf8.encode text)
  have hrawOrdered := hsearch.ordered (s.values.map SecretValue.bytes) (Utf8.encode text)
  -- a match of any stream is an occurrence, and the other way round
  have hmem : ∀ r, (r ∈ search (s.values.map SecretValue.bytes) (Utf8.encode text) ∨
      r ∈ xs ++ ys) ↔ Secret s (Utf8.encode text) cut r := by
    intro r
    rw [hraw, List.mem_append, hys', Secret]
    constructor
    · rintro (h | h | h)
      · exact Or.inl h
      · exact Or.inr (Or.inl (hxs' r h))
      · exact Or.inr (Or.inr h)
    · rintro (h | h | h)
      · exact Or.inl h
      · exact (hxs'' r h).elim (fun h => Or.inr (Or.inl h)) Or.inl
      · exact Or.inr (Or.inr h)
  have hfind : s.findMatches search (Utf8.encode text) cut =
      some (if ([first, second].filterMap id).isEmpty then
          search (s.values.map SecretValue.bytes) (Utf8.encode text)
        else
          mergeMatches ((search (s.values.map SecretValue.bytes) (Utf8.encode text) ::
              streams).map List.length).sum
            (search (s.values.map SecretValue.bytes) (Utf8.encode text) :: streams)) := by
    cases cut with
    | false =>
      obtain rfl : none = second := Option.some.inj hnew'
      simp only [Secrets.findMatches, hnew, Option.bind_eq_bind, Option.bind_some,
        Bool.false_eq_true, if_false, hstreams]
      rfl
    | true =>
      have hnew' : Decoded.new (Utf8.encode text) true = some second := hnew'
      simp only [Secrets.findMatches, hnew, hnew', Option.bind_eq_bind, Option.bind_some,
        if_true, hstreams]
      rfl
  by_cases hviews : ([first, second].filterMap id).isEmpty = true
  · rw [if_pos hviews] at hfind
    obtain ⟨rfl, rfl⟩ := hempty hviews
    refine ⟨_, hfind, hrawOrdered, ?_⟩
    intro r
    rw [← hmem r]
    simp
  · rw [if_neg hviews] at hfind
    obtain ⟨hperm, hmerged⟩ := mergeMatches_spec
      (search (s.values.map SecretValue.bytes) (Utf8.encode text) :: streams)
      (Nat.le_of_eq List.length_flatten) (List.forall_mem_cons.mpr ⟨hrawOrdered, hordered⟩)
    refine ⟨_, hfind, hmerged, ?_⟩
    intro r
    rw [hperm.mem_iff, List.flatten_cons, List.mem_append, hflat]
    exact hmem r

end views

end Kyora
