import Kyora.Framework.Utf8
import Kyora.Tool.Schema
import Mathlib.Data.Nat.Find

/-! # Editing a file

  `edit_file` replaces the matches of a text in the content of a file. Matches are
  found from left to right and do not overlap, so a text can occur at several
  positions and still count as one match.
-/

namespace Kyora.Files

/-! ### Matches -/

/-- `text.matches(old)`, by position; the first `skip` characters belong to a match
    already and `at_` is the position of the next one. -/
def matchIndices (old : List Char) : Nat → Nat → List Char → List Nat
  | _, _, [] => []
  | skip + 1, at_, _ :: rest => matchIndices old skip (at_ + 1) rest
  | 0, at_, c :: rest =>
    if old.isPrefixOf (c :: rest) then
      at_ :: matchIndices old (old.length - 1) (at_ + 1) rest
    else matchIndices old 0 (at_ + 1) rest

/-- `text.matches(old).count()`. -/
def countMatches (old text : List Char) : Nat := (matchIndices old 0 0 text).length

/-- `text.replace(old, new)`, with the characters to skip as in `matchIndices`. -/
def replaceMatches (old new : List Char) : Nat → List Char → List Char
  | _, [] => []
  | skip + 1, _ :: rest => replaceMatches old new skip rest
  | 0, c :: rest =>
    if old.isPrefixOf (c :: rest) then new ++ replaceMatches old new (old.length - 1) rest
    else c :: replaceMatches old new 0 rest

/-! ### The operation -/

/-- The arguments of an edit. -/
structure EditInput where
  old : List Char
  new : List Char
  replaceAll : Bool

/-- `value.as_str()`. -/
def asStr : Json → Option (List Char)
  | .string s => some s.toList
  | _ => none

/-- The checks of the arguments. -/
def EditInput.ofJson (input : Json) : Except String EditInput :=
  match asStr (input.index "old") with
  | none => .error "missing old"
  | some old =>
    match asStr (input.index "new") with
    | none => .error "missing new"
    | some new =>
      if old = [] then .error "old must not be empty"
      else
        .ok ⟨old, new, match input.index "replace_all" with | .bool true => true | _ => false⟩

/-- What an edit makes of the text of the file, and its number of matches. -/
def EditInput.apply (e : EditInput) (text : List Char) : Except String (List Char × Nat) :=
  let count := countMatches e.old text
  if count = 0 ∨ (count ≠ 1 ∧ e.replaceAll = false) then
    .error ("expected exactly one match, found " ++ toString count)
  else .ok (replaceMatches e.old e.new 0 text, count)

/-- An edit of a file with some content: the content it leaves and what it reports. -/
def edit (input : Json) (content : List UInt8) : List UInt8 × Except String String :=
  match EditInput.ofJson input with
  | .error e => (content, .error e)
  | .ok e =>
    match Utf8.decode content with
    | none => (content, .error "stream did not contain valid UTF-8")
    | some text =>
      match e.apply text with
      | .error message => (content, .error message)
      | .ok (replaced, count) =>
        (Utf8.encode replaced, .ok ("replaced " ++ toString count ++ " matches"))

/-- A refused edit leaves the file as it is. -/
theorem edit_refused {input : Json} {content : List UInt8} {message : String}
    (h : (edit input content).2 = .error message) : (edit input content).1 = content := by
  cases hinput : EditInput.ofJson input with
  | error e => rw [edit, hinput]
  | ok e =>
    cases htext : Utf8.decode content with
    | none => simp only [edit, hinput, htext]
    | some text =>
      cases happly : e.apply text with
      | error reason => simp only [edit, hinput, htext, happly]
      | ok x =>
        simp only [edit, hinput, htext, happly] at h
        cases h

/-! ### Positions -/

/-- `old` is in the text at a position. -/
def OccursAt (text old : List Char) (i : Nat) : Prop :=
  ∃ before after, text = before ++ old ++ after ∧ before.length = i

section matching

variable {old new text before after : List Char}

theorem occursAt_zero : OccursAt text old 0 ↔ old <+: text := by
  constructor
  · rintro ⟨before, after, rfl, hzero⟩
    obtain rfl := List.length_eq_zero_iff.mp hzero
    exact ⟨after, rfl⟩
  · rintro ⟨after, rfl⟩
    exact ⟨[], after, rfl, rfl⟩

theorem occursAt_succ {c : Char} {i : Nat} :
    OccursAt (c :: text) old (i + 1) ↔ OccursAt text old i := by
  constructor
  · rintro ⟨before, after, heq, hlength⟩
    cases before with
    | nil => cases hlength
    | cons c' before =>
      obtain ⟨-, rfl⟩ := List.cons.inj heq
      exact ⟨before, after, rfl, Nat.succ.inj hlength⟩
  · rintro ⟨before, after, rfl, rfl⟩
    exact ⟨c :: before, after, rfl, rfl⟩

/-- A position after a piece of text is a position in the rest. -/
theorem occursAt_append {i : Nat} :
    OccursAt (before ++ text) old (before.length + i) ↔ OccursAt text old i := by
  induction before with
  | nil => rw [List.nil_append, List.length_nil, Nat.zero_add]
  | cons c before ih =>
    rw [List.cons_append, List.length_cons, Nat.add_right_comm, occursAt_succ, ih]

theorem matchIndices_skip (at_ : Nat) :
    matchIndices old before.length at_ (before ++ after) =
      matchIndices old 0 (at_ + before.length) after := by
  induction before generalizing at_ with
  | nil => rfl
  | cons c before ih =>
    show matchIndices old before.length (at_ + 1) (before ++ after) = _
    rw [ih, List.length_cons]
    congr 1
    omega

theorem replaceMatches_skip :
    replaceMatches old new before.length (before ++ after) = replaceMatches old new 0 after := by
  induction before with
  | nil => rfl
  | cons c before ih => exact ih

theorem matchIndices_nil_of_none {at_ : Nat} (h : ∀ i, ¬OccursAt text old i) :
    matchIndices old 0 at_ text = [] := by
  induction text generalizing at_ with
  | nil => rfl
  | cons c text ih =>
    have hprefix : ¬old.isPrefixOf (c :: text) = true := fun hp =>
      h 0 (occursAt_zero.mpr (List.isPrefixOf_iff_prefix.mp hp))
    rw [matchIndices, if_neg hprefix]
    exact ih fun i hi => h (i + 1) (occursAt_succ.mpr hi)

theorem replaceMatches_of_none (h : ∀ i, ¬OccursAt text old i) :
    replaceMatches old new 0 text = text := by
  induction text with
  | nil => rfl
  | cons c text ih =>
    have hprefix : ¬old.isPrefixOf (c :: text) = true := fun hp =>
      h 0 (occursAt_zero.mpr (List.isPrefixOf_iff_prefix.mp hp))
    rw [replaceMatches, if_neg hprefix, ih fun i hi => h (i + 1) (occursAt_succ.mpr hi)]

/-- The first match is the first position, and the next one is looked for after it. -/
theorem matches_first (new : List Char) (hold : old ≠ [])
    (hfirst : ∀ i, OccursAt (before ++ old ++ after) old i → before.length ≤ i) (at_ : Nat) :
    matchIndices old 0 at_ (before ++ old ++ after) = (at_ + before.length) ::
        matchIndices old 0 (at_ + before.length + old.length) after ∧
      replaceMatches old new 0 (before ++ old ++ after) =
        before ++ new ++ replaceMatches old new 0 after := by
  induction before generalizing at_ with
  | nil =>
    obtain ⟨c, rest, rfl⟩ := List.exists_cons_of_ne_nil hold
    have hprefix : (c :: rest).isPrefixOf (c :: (rest ++ after)) = true :=
      List.isPrefixOf_iff_prefix.mpr ⟨after, rfl⟩
    constructor
    · show matchIndices (c :: rest) 0 at_ (c :: (rest ++ after)) = _
      rw [matchIndices, if_pos hprefix]
      show at_ :: matchIndices (c :: rest) rest.length (at_ + 1) (rest ++ after) = _
      rw [matchIndices_skip, List.length_nil, List.length_cons]
      congr 2
      omega
    · show replaceMatches (c :: rest) new 0 (c :: (rest ++ after)) = _
      rw [replaceMatches, if_pos hprefix]
      show new ++ replaceMatches (c :: rest) new rest.length (rest ++ after) = _
      rw [replaceMatches_skip]
      rfl
  | cons c before ih =>
    have hprefix : ¬old.isPrefixOf (c :: (before ++ old ++ after)) = true := by
      intro hp
      have hle := hfirst 0 (occursAt_zero.mpr (List.isPrefixOf_iff_prefix.mp hp))
      rw [List.length_cons] at hle
      omega
    have hrest : ∀ i, OccursAt (before ++ old ++ after) old i → before.length ≤ i := by
      intro i hi
      have hle := hfirst (i + 1) (occursAt_succ.mpr hi)
      rw [List.length_cons] at hle
      omega
    obtain ⟨hindices, hreplace⟩ := ih hrest (at_ + 1)
    constructor
    · show matchIndices old 0 at_ (c :: (before ++ old ++ after)) = _
      have hshift : at_ + (before.length + 1) = at_ + 1 + before.length := by omega
      rw [matchIndices, if_neg hprefix, hindices, List.length_cons, hshift]
    · show replaceMatches old new 0 (c :: (before ++ old ++ after)) = _
      rw [replaceMatches, if_neg hprefix, hreplace]
      rfl

theorem exists_first (h : ∃ i, OccursAt text old i) :
    ∃ before after, text = before ++ old ++ after ∧
      ∀ i, OccursAt text old i → before.length ≤ i := by
  classical
  obtain ⟨before, after, htext, hlength⟩ := Nat.find_spec h
  refine ⟨before, after, htext, ?_⟩
  intro i hi
  rw [hlength]
  exact Nat.find_min' h hi

/-- There is one match exactly when there is a position, and none after the first
    match. -/
theorem countMatches_eq_one (hold : old ≠ []) : countMatches old text = 1 ↔
    ∃ before after, text = before ++ old ++ after ∧
      (∀ i, OccursAt text old i → before.length ≤ i) ∧ ∀ i, ¬OccursAt after old i := by
  constructor
  · intro h
    have hex : ∃ i, OccursAt text old i := by
      by_contra hnone
      rw [not_exists] at hnone
      rw [countMatches, matchIndices_nil_of_none hnone] at h
      cases h
    obtain ⟨before, after, rfl, hfirst⟩ := exists_first hex
    refine ⟨before, after, rfl, hfirst, ?_⟩
    intro i hi
    obtain ⟨x, y, hsplit, hmin⟩ := exists_first ⟨i, hi⟩
    rw [countMatches, (matches_first [] hold hfirst 0).1, List.length_cons, hsplit,
      (matches_first [] hold (hsplit ▸ hmin) _).1, List.length_cons] at h
    omega
  · rintro ⟨before, after, rfl, hfirst, hafter⟩
    rw [countMatches, (matches_first [] hold hfirst 0).1, List.length_cons,
      matchIndices_nil_of_none hafter, List.length_nil]

/-- The positions after a first match. -/
theorem occursAt_after {i : Nat} (hi : before.length + old.length ≤ i) :
    OccursAt (before ++ old ++ after) old i ↔
      OccursAt after old (i - (before.length + old.length)) := by
  have hsplit : i = (before ++ old).length + (i - (before.length + old.length)) := by
    rw [List.length_append]
    omega
  rw [hsplit, occursAt_append, ← hsplit]

end matching

/-! ### One position -/

/-- The text has several positions, and every two of them overlap. -/
def Overlapping (text old : List Char) : Prop :=
  (∃ i j, i < j ∧ OccursAt text old i ∧ OccursAt text old j) ∧
    ∀ i j, i < j → OccursAt text old i → OccursAt text old j → j < i + old.length

/-- What an edit is to do: succeed on one position alone and replace it, and else
    leave the file as it is. -/
structure ReplacesOne (input : Json) (text old new : List Char) : Prop where
  succeeds : (∃ message, (edit input (Utf8.encode text)).2 = .ok message) ↔
    ∃! i, OccursAt text old i
  replaces : ∀ before after, text = before ++ old ++ after →
    (∀ i, OccursAt text old i → i = before.length) →
    (edit input (Utf8.encode text)).1 = Utf8.encode (before ++ new ++ after)
  refuses : ∀ message, (edit input (Utf8.encode text)).2 = .error message →
    (edit input (Utf8.encode text)).1 = Utf8.encode text

section edit

variable {input : Json} {text old new : List Char}

/-- One match is one position, unless positions overlap. -/
theorem countMatches_eq_one_iff (text : List Char) (hold : old ≠ []) :
    countMatches old text = 1 ↔ (∃! i, OccursAt text old i) ∨ Overlapping text old := by
  have hpos := List.length_pos_iff.mpr hold
  rw [countMatches_eq_one hold]
  constructor
  · rintro ⟨before, after, rfl, hfirst, hafter⟩
    have hat : OccursAt (before ++ old ++ after) old before.length := ⟨before, after, rfl, rfl⟩
    -- every other position starts inside the first match
    have hinside : ∀ j, OccursAt (before ++ old ++ after) old j → j < before.length + old.length := by
      intro j hj
      by_contra hlt
      exact hafter _ ((occursAt_after (by omega)).mp hj)
    by_cases hunique : ∃! i, OccursAt (before ++ old ++ after) old i
    · exact Or.inl hunique
    · refine Or.inr ⟨?_, ?_⟩
      · by_contra hnone
        refine hunique ⟨before.length, hat, ?_⟩
        intro j hj
        by_contra hne
        have hle := hfirst j hj
        exact hnone ⟨before.length, j, by omega, hat, hj⟩
      · intro i j hij hi hj
        have hle := hfirst i hi
        have hlt := hinside j hj
        omega
  · intro h
    have hex : ∃ i, OccursAt text old i := by
      rcases h with ⟨i, hi, -⟩ | ⟨⟨i, -, -, hi, -⟩, -⟩
      · exact ⟨i, hi⟩
      · exact ⟨i, hi⟩
    obtain ⟨before, after, rfl, hfirst⟩ := exists_first hex
    have hat : OccursAt (before ++ old ++ after) old before.length := ⟨before, after, rfl, rfl⟩
    refine ⟨before, after, rfl, hfirst, ?_⟩
    intro j hj
    have hj' : OccursAt (before ++ old ++ after) old (before.length + old.length + j) := by
      refine (occursAt_after (by omega)).mpr ?_
      rw [Nat.add_sub_cancel_left]
      exact hj
    rcases h with ⟨i, -, honly⟩ | ⟨-, hoverlap⟩
    · have hsame := (honly _ hat).trans (honly _ hj').symm
      omega
    · have hlt := hoverlap _ _ (by omega) hat hj'
      omega

theorem EditInput.ofJson_eq {old new : String} (hold : input.index "old" = .string old)
    (hne : old ≠ "") (hnew : input.index "new" = .string new)
    (hall : input.index "replace_all" ≠ .bool true) :
    EditInput.ofJson input = .ok ⟨old.toList, new.toList, false⟩ := by
  have hlist : old.toList ≠ [] := fun h => hne (String.toList_eq_nil_iff.mp h)
  have hflag : (match input.index "replace_all" with | .bool true => true | _ => false) =
      false := by
    split
    · next h => exact absurd h hall
    · rfl
  rw [EditInput.ofJson, hold, hnew]
  show (if old.toList = [] then _ else _) = _
  rw [if_neg hlist, hflag]

theorem edit_eq {e : EditInput} (text : List Char) (h : EditInput.ofJson input = .ok e) :
    edit input (Utf8.encode text) = match e.apply text with
      | .error message => (Utf8.encode text, .error message)
      | .ok x => (Utf8.encode x.1, .ok ("replaced " ++ toString x.2 ++ " matches")) := by
  simp only [edit, h, Utf8.decode_encode]
  cases e.apply text with
  | error message => rfl
  | ok x => rfl

/-- Without `replace_all` one match is asked for. -/
theorem apply_eq : EditInput.apply ⟨old, new, false⟩ text =
    if countMatches old text = 1 then .ok (replaceMatches old new 0 text, 1)
    else .error ("expected exactly one match, found " ++ toString (countMatches old text)) := by
  by_cases hone : countMatches old text = 1
  · simp [EditInput.apply, hone]
  · simp [EditInput.apply, hone]

/-- An edit without `replace_all` does what it is to do, unless the text has several
    positions that all overlap. -/
theorem edit_replacesOne_iff {old new : String} (text : List Char)
    (hold : input.index "old" = .string old) (hne : old ≠ "")
    (hnew : input.index "new" = .string new)
    (hall : input.index "replace_all" ≠ .bool true) :
    ReplacesOne input text old.toList new.toList ↔ ¬Overlapping text old.toList := by
  have hlist : old.toList ≠ [] := fun h => hne (String.toList_eq_nil_iff.mp h)
  have hedit := edit_eq text (EditInput.ofJson_eq hold hne hnew hall)
  rw [apply_eq] at hedit
  have hcount := countMatches_eq_one_iff text hlist
  have hok : (∃ message, (edit input (Utf8.encode text)).2 = .ok message) ↔
      countMatches old.toList text = 1 := by
    rw [hedit]
    by_cases hone : countMatches old.toList text = 1
    · simp [hone]
    · simp [hone]
  constructor
  · rintro ⟨hsucceeds, -, -⟩ hoverlap
    obtain ⟨i, -, honly⟩ := hsucceeds.mp (hok.mpr (hcount.mpr (Or.inr hoverlap)))
    obtain ⟨⟨j, k, hjk, hj, hk⟩, -⟩ := hoverlap
    have hsame := (honly j hj).trans (honly k hk).symm
    omega
  · intro hoverlap
    have hunique : countMatches old.toList text = 1 ↔ ∃! i, OccursAt text old.toList i := by
      rw [hcount]
      exact or_iff_left hoverlap
    refine ⟨hok.trans hunique, ?_, fun message => edit_refused⟩
    intro before after htext honly
    have hat : OccursAt text old.toList before.length := ⟨before, after, htext, rfl⟩
    rw [hedit, if_pos (hunique.mpr ⟨_, hat, honly⟩)]
    -- the first match is the only position, so nothing after it is replaced
    have hfirst : ∀ i, OccursAt (before ++ old.toList ++ after) old.toList i → before.length ≤ i := by
      intro i hi
      exact Nat.le_of_eq (honly i (htext ▸ hi)).symm
    have hafter : ∀ i, ¬OccursAt after old.toList i := by
      intro i hi
      have hpos := List.length_pos_iff.mpr hlist
      have hsecond : OccursAt text old.toList (before.length + old.toList.length + i) := by
        rw [htext]
        refine (occursAt_after (by omega)).mpr ?_
        rw [Nat.add_sub_cancel_left]
        exact hi
      have hsame := honly _ hsecond
      omega
    show Utf8.encode (replaceMatches old.toList new.toList 0 text) = _
    rw [htext, (matches_first new.toList hlist hfirst 0).2, replaceMatches_of_none hafter]

end edit

/-- Replace `aa` by `b`. -/
def doubled : Json :=
  .object [("new", .string "b"), ("old", .string "aa"), ("path", .string "notes")]

theorem edit_replacesOne_doubled :
    ReplacesOne doubled ['x', 'a', 'a', 'y'] "aa".toList "b".toList ↔
      ¬Overlapping ['x', 'a', 'a', 'y'] "aa".toList :=
  edit_replacesOne_iff ['x', 'a', 'a', 'y'] rfl (by decide) rfl (fun h => by cases h)

/-- The text has two positions, and the edit succeeds and replaces the first one. -/
theorem edit_overlapping :
    ¬ReplacesOne doubled ['a', 'a', 'a'] "aa".toList "b".toList ∧
      (edit doubled (Utf8.encode ['a', 'a', 'a'])).1 = Utf8.encode ['b', 'a'] := by
  have hinput : EditInput.ofJson doubled = .ok ⟨['a', 'a'], ['b'], false⟩ := rfl
  have hcount : countMatches ['a', 'a'] ['a', 'a', 'a'] = 1 := by decide
  have hreplace : replaceMatches ['a', 'a'] ['b'] 0 ['a', 'a', 'a'] = ['b', 'a'] := by decide
  have hedit := edit_eq ['a', 'a', 'a'] hinput
  rw [apply_eq, if_pos hcount, hreplace] at hedit
  refine ⟨?_, by rw [hedit]⟩
  rintro ⟨hsucceeds, -, -⟩
  obtain ⟨i, -, honly⟩ := hsucceeds.mp ⟨_, by rw [hedit]⟩
  have hzero := honly 0 ⟨[], ['a'], rfl, rfl⟩
  have hone := honly 1 ⟨['a'], [], rfl, rfl⟩
  omega

end Kyora.Files
