import Kyora.Files.Edit
import Kyora.Framework.Walk

/-! # Paths of the file tools

  A tool names a file by a path, which is normalized before anything is opened.
  An absolute path has to be inside the workspace root, in a trusted spelling of
  it; what is left of it, like a relative path, may not climb above the root and
  has to name something in it. `canonicalize` is a parameter and is asked about
  trusted spellings only.
-/

namespace Kyora.Files

/-- A path: its bytes. -/
abbrev Path : Type := List UInt8

/-- `/`. -/
def slash : UInt8 := 0x2F

/-! ### Components -/

/-- What stands between two slashes. -/
abbrev Piece : Type := { bytes : Path // slash ∉ bytes }

/-- The pieces between the slashes of a path. -/
def pieces : Path → List Piece
  | [] => [⟨[], List.not_mem_nil⟩]
  | b :: path =>
    if h : b = slash then ⟨[], List.not_mem_nil⟩ :: pieces path
    else
      match pieces path with
      | [] => [⟨[b], fun hmem => h (List.mem_singleton.mp hmem).symm⟩]
      | p :: ps =>
        ⟨b :: p.1, fun hmem => (List.mem_cons.mp hmem).elim (fun heq => h heq.symm) p.2⟩ :: ps

/-- `.`. -/
def dot : Path := [0x2E]

/-- `..`. -/
def dotDot : Path := [0x2E, 0x2E]

/-- A normal component: the name of an entry in a directory. -/
structure Name where
  bytes : Path
  noSlash : slash ∉ bytes
  nonempty : bytes ≠ []
  notDot : bytes ≠ dot
  notDotDot : bytes ≠ dotDot
  deriving DecidableEq

/-- `std::path::Component`, without the prefixes of other systems. -/
inductive Component where
  | rootDir
  | curDir
  | parentDir
  | normal (name : Name)
  deriving DecidableEq

/-- Empty pieces and `.` are skipped. -/
def component? (p : Piece) : Option Component :=
  if hempty : p.1 = [] then none
  else if hdot : p.1 = dot then none
  else if hdotDot : p.1 = dotDot then some .parentDir
  else some (.normal ⟨p.1, p.2, hempty, hdot, hdotDot⟩)

/-- `is_absolute`. -/
def isAbsolute (path : Path) : Bool := path.head? == some slash

/-- `components`. A `.` counts at the start of a relative path only. -/
def components (path : Path) : List Component :=
  (if isAbsolute path then [.rootDir]
    else if (pieces path).head?.map Subtype.val = some dot then [.curDir]
    else []) ++ (pieces path).filterMap component?

/-- `==` on paths goes by the components. -/
def samePath (path path' : Path) : Bool := components path == components path'

/-- `strip_prefix`: the components that are left. -/
def stripPrefix (path base : Path) : Option (List Component) :=
  if (components base).isPrefixOf (components path) then
    some ((components path).drop (components base).length)
  else none

/-! ### The check of a path -/

/-- `max_by_key`: the last one with the largest key. -/
def maxByKey {α : Type} (key : α → Nat) : List α → Option α
  | [] => none
  | x :: xs =>
    match maxByKey key xs with
    | none => some x
    | some y => if key x ≤ key y then some y else some x

section path

variable (canonicalize : Path → Except String Path)

/-- Aliases apply only to the root they were computed for: the canonical root comes
    first. -/
def applicable (canonical : Path) (aliases : List Path) : List Path :=
  match aliases with
  | first :: _ => if samePath first canonical then aliases else []
  | [] => []

/-- A trusted spelling still names the root. -/
def isValid (root canonical spelling : Path) : Bool :=
  samePath spelling root || samePath spelling canonical ||
    match canonicalize spelling with
    | .ok target => samePath target canonical
    | .error _ => false

/-- What is left of an absolute path: the most specific valid spelling is removed
    if trusted aliases overlap. -/
def inWorkspace (root : Path) (aliases : List Path) (supplied : Path) :
    Except String (List Component) :=
  (canonicalize root).bind fun canonical =>
    let matching := (applicable canonical aliases ++ [root, canonical]).filterMap fun spelling =>
      (stripPrefix supplied spelling).map fun relative => (spelling, relative)
    let valid := fun x : Path × List Component => isValid canonicalize root canonical x.1
    match maxByKey (fun x => (components x.1).length) (matching.filter valid) with
    | some (_, relative) => .ok relative
    | none =>
      if matching.any fun x => !valid x then
        .error "workspace alias no longer refers to the workspace root"
      else .error "absolute path must be inside the workspace root"

/-- One component: `relative.push(name)` or `relative.pop()`. -/
def follow (relative : List Name) : Component → Except String (List Name)
  | .normal name => .ok (relative ++ [name])
  | .curDir => .ok relative
  | .parentDir =>
    if relative.isEmpty then .error "path must remain relative to the workspace root"
    else .ok relative.dropLast
  | .rootDir => .error "path must remain relative to the workspace root"

/-- The normalized path that an input names, relative to the root. -/
def path (input : Json) (root : Path) (aliases : List Path) : Except String (List Name) :=
  match asStr (input.index "path") with
  | none => .error "missing path"
  | some p =>
    let supplied := Utf8.encode p
    (if isAbsolute supplied then inWorkspace canonicalize root aliases supplied
      else .ok (components supplied)).bind fun supplied =>
        (supplied.foldlM follow []).bind fun relative =>
          if relative.isEmpty then .error "path must name a file" else .ok relative

end path

/-- The path of some names. -/
def joined (names : List Name) : Path :=
  match names with
  | [] => []
  | [name] => name.bytes
  | name :: names => name.bytes ++ slash :: joined names

/-! ### What is to be accepted -/

/-- A component as a move from a directory to another one. -/
def Component.ofMove : Move Name → Component
  | .down name => .normal name
  | .stay => .curDir
  | .up => .parentDir

section spec

variable (canonicalize : Path → Except String Path) (root canonical : Path) (aliases : List Path)

/-- A trusted spelling of the root that still names it: the working directory itself,
    in either of its spellings, or an alias for it. -/
structure Trusted (spelling : Path) : Prop where
  listed : spelling ∈ applicable canonical aliases ∨ spelling = root ∨ spelling = canonical
  valid : samePath spelling root = true ∨ samePath spelling canonical = true ∨
    ∃ target, canonicalize spelling = .ok target ∧ samePath target canonical = true

/-- A path is under a spelling, which is not the empty path. -/
def Under (spelling supplied : Path) (rest : List Component) : Prop :=
  components spelling ≠ [] ∧ components supplied = components spelling ++ rest

/-- A path taken relative to the root: an absolute one after its most specific
    trusted spelling. -/
def Relative (supplied : Path) (rest : List Component) : Prop :=
  isAbsolute supplied = false ∧ rest = components supplied ∨
    isAbsolute supplied = true ∧ ∃ canonical spelling, canonicalize root = .ok canonical ∧
      Trusted canonicalize root canonical aliases spelling ∧ Under spelling supplied rest ∧
      ∀ other rest', Trusted canonicalize root canonical aliases other →
        Under other supplied rest' → (components other).length ≤ (components spelling).length

/-- An absolute path that is under no trusted spelling. -/
def Outside (supplied : Path) : Prop :=
  isAbsolute supplied = true ∧ ∀ spelling rest,
    Trusted canonicalize root canonical aliases spelling → ¬Under spelling supplied rest

end spec

/-! ### The components of a path -/

theorem component?_ne_rootDir {p : Piece} {c : Component} (h : component? p = some c) :
    c ≠ .rootDir := by
  unfold component? at h
  split_ifs at h
  · rw [← Option.some.inj h]
    exact Component.noConfusion
  · rw [← Option.some.inj h]
    exact Component.noConfusion

theorem rootDir_not_mem_filterMap (ps : List Piece) :
    Component.rootDir ∉ ps.filterMap component? := by
  intro hmem
  obtain ⟨p, -, hp⟩ := List.mem_filterMap.mp hmem
  exact component?_ne_rootDir hp rfl

theorem components_relative {path : Path} (h : isAbsolute path = false) :
    Component.rootDir ∉ components path := by
  unfold components
  rw [h, if_neg Bool.false_ne_true, List.mem_append, not_or]
  refine ⟨?_, rootDir_not_mem_filterMap _⟩
  split_ifs
  · exact List.not_mem_cons_of_ne_of_not_mem Component.noConfusion List.not_mem_nil
  · exact List.not_mem_nil

theorem components_absolute {path : Path} (h : isAbsolute path = true) :
    ∃ cs, components path = .rootDir :: cs ∧ Component.rootDir ∉ cs :=
  ⟨(pieces path).filterMap component?, by rw [components, if_pos h]; rfl,
    rootDir_not_mem_filterMap _⟩

/-- Components other than the root are moves. -/
theorem exists_moves {cs : List Component} (h : Component.rootDir ∉ cs) :
    ∃ moves : List (Move Name), cs = moves.map Component.ofMove := by
  induction cs with
  | nil => exact ⟨[], rfl⟩
  | cons c cs ih =>
    obtain ⟨hc, hcs⟩ := not_or.mp fun hmem => h (List.mem_cons.mpr hmem)
    obtain ⟨moves, rfl⟩ := ih hcs
    cases c with
    | rootDir => exact absurd rfl hc
    | curDir => exact ⟨.stay :: moves, rfl⟩
    | parentDir => exact ⟨.up :: moves, rfl⟩
    | normal name => exact ⟨.down name :: moves, rfl⟩

theorem stripPrefix_eq_some_iff {path base : Path} {rest : List Component} :
    stripPrefix path base = some rest ↔ components path = components base ++ rest := by
  unfold stripPrefix
  by_cases hprefix : (components base).isPrefixOf (components path) = true
  · obtain ⟨rest', hrest'⟩ := List.isPrefixOf_iff_prefix.mp hprefix
    rw [if_pos hprefix, ← hrest', List.drop_left, Option.some.injEq, List.append_cancel_left_eq]
  · rw [if_neg hprefix]
    constructor
    · intro h
      cases h
    · intro h
      exact absurd (List.isPrefixOf_iff_prefix.mpr ⟨rest, h.symm⟩) hprefix

/-- What is left under a spelling does not start at the root again. -/
theorem Under.moves {spelling supplied : Path} {rest : List Component}
    (h : Under spelling supplied rest) (habsolute : isAbsolute supplied = true) :
    ∃ moves : List (Move Name), rest = moves.map Component.ofMove := by
  obtain ⟨hne, heq⟩ := h
  obtain ⟨cs, hcs, hroot⟩ := components_absolute habsolute
  obtain ⟨c, front, hspelling⟩ := List.exists_cons_of_ne_nil hne
  rw [hcs, hspelling, List.cons_append] at heq
  rw [(List.cons.inj heq).2, List.mem_append, not_or] at hroot
  exact exists_moves hroot.2

/-! ### The choice of a spelling -/

theorem maxByKey_none {α : Type} {key : α → Nat} {xs : List α}
    (h : maxByKey key xs = none) : xs = [] := by
  cases xs with
  | nil => rfl
  | cons z zs =>
    rw [maxByKey] at h
    cases hrest : maxByKey key zs with
    | none => rw [hrest] at h; cases h
    | some y =>
      rw [hrest] at h
      by_cases hle : key z ≤ key y
      · simp only [if_pos hle] at h
        cases h
      · simp only [if_neg hle] at h
        cases h

theorem maxByKey_some {α : Type} {key : α → Nat} {xs : List α} {x : α}
    (h : maxByKey key xs = some x) : x ∈ xs ∧ ∀ y ∈ xs, key y ≤ key x := by
  induction xs generalizing x with
  | nil => cases h
  | cons z zs ih =>
    rw [maxByKey] at h
    cases hrest : maxByKey key zs with
    | none =>
      rw [hrest] at h
      obtain rfl := Option.some.inj h
      obtain rfl := maxByKey_none hrest
      refine ⟨List.mem_singleton_self z, fun y hy => ?_⟩
      rw [List.mem_singleton.mp hy]
    | some y =>
      obtain ⟨hy, hmax⟩ := ih hrest
      rw [hrest] at h
      by_cases hle : key z ≤ key y
      · simp only [if_pos hle] at h
        obtain rfl := Option.some.inj h
        exact ⟨List.mem_cons_of_mem z hy, List.forall_mem_cons.mpr ⟨hle, hmax⟩⟩
      · simp only [if_neg hle] at h
        obtain rfl := Option.some.inj h
        refine ⟨List.mem_cons_self, List.forall_mem_cons.mpr ⟨Nat.le_refl _, fun w hw => ?_⟩⟩
        have hwy := hmax w hw
        omega

section choice

variable {canonicalize : Path → Except String Path} {root canonical : Path} {aliases : List Path}

theorem isValid_iff {spelling : Path} : isValid canonicalize root canonical spelling = true ↔
    samePath spelling root = true ∨ samePath spelling canonical = true ∨
      ∃ target, canonicalize spelling = .ok target ∧ samePath target canonical = true := by
  unfold isValid
  rw [Bool.or_eq_true, Bool.or_eq_true, or_assoc]
  refine or_congr_right (or_congr_right ?_)
  cases canonicalize spelling with
  | error e => simp
  | ok target => simp

/-- The spellings an absolute path is matched with, each with what is left of it. -/
def matching (root canonical : Path) (aliases : List Path) (supplied : Path) :
    List (Path × List Component) :=
  (applicable canonical aliases ++ [root, canonical]).filterMap fun spelling =>
    (stripPrefix supplied spelling).map fun relative => (spelling, relative)

theorem mem_matching {supplied spelling : Path} {rest : List Component} :
    (spelling, rest) ∈ matching root canonical aliases supplied ↔
      (spelling ∈ applicable canonical aliases ∨ spelling = root ∨ spelling = canonical) ∧
        components supplied = components spelling ++ rest := by
  unfold matching
  simp only [List.mem_filterMap, List.mem_append, List.mem_cons, List.not_mem_nil, or_false,
    Option.map_eq_some_iff, Prod.mk.injEq, stripPrefix_eq_some_iff]
  constructor
  · intro h
    obtain ⟨spelling', hlisted, rest', heq, rfl, rfl⟩ := h
    exact ⟨hlisted, heq⟩
  · intro h
    exact ⟨spelling, h.1, rest, h.2, rfl, rfl⟩

/-- The choice is the last of the most specific valid spellings. -/
theorem inWorkspace_eq (hroot : canonicalize root = .ok canonical) (supplied : Path) :
    inWorkspace canonicalize root aliases supplied =
      match maxByKey (fun x => (components x.1).length)
          ((matching root canonical aliases supplied).filter fun x =>
            isValid canonicalize root canonical x.1) with
      | some (_, relative) => .ok relative
      | none =>
        if (matching root canonical aliases supplied).any fun x =>
            !isValid canonicalize root canonical x.1 then
          .error "workspace alias no longer refers to the workspace root"
        else .error "absolute path must be inside the workspace root" := by
  unfold inWorkspace
  rw [hroot]
  rfl

theorem mem_valid {supplied spelling : Path} {rest : List Component}
    (h : Trusted canonicalize root canonical aliases spelling)
    (hunder : Under spelling supplied rest) :
    (spelling, rest) ∈ (matching root canonical aliases supplied).filter fun x =>
      isValid canonicalize root canonical x.1 :=
  List.mem_filter.mpr ⟨mem_matching.mpr ⟨h.listed, hunder.2⟩, isValid_iff.mpr h.valid⟩

/-- What is left of an absolute path is relative to the root, unless the path is
    outside. -/
theorem inWorkspace_ok {supplied : Path} {rest : List Component}
    (hroot : canonicalize root = .ok canonical) (habsolute : isAbsolute supplied = true)
    (h : inWorkspace canonicalize root aliases supplied = .ok rest) :
    Relative canonicalize root aliases supplied rest ∨
      rest.head? = some .rootDir ∧ Outside canonicalize root canonical aliases supplied := by
  rw [inWorkspace_eq hroot] at h
  cases hmax : maxByKey (fun x => (components x.1).length)
      ((matching root canonical aliases supplied).filter fun x =>
        isValid canonicalize root canonical x.1) with
  | none =>
    rw [hmax] at h
    simp only at h
    split_ifs at h
  | some x =>
    obtain ⟨spelling, relative⟩ := x
    rw [hmax] at h
    obtain rfl := Except.ok.inj h
    obtain ⟨hmem, hlargest⟩ := maxByKey_some hmax
    obtain ⟨hmatch, hvalid⟩ := List.mem_filter.mp hmem
    obtain ⟨hlisted, heq⟩ := mem_matching.mp hmatch
    by_cases hne : components spelling = []
    · -- the empty path is a prefix of every path; there is no better one
      right
      obtain ⟨cs, hcs, -⟩ := components_absolute habsolute
      rw [hne, List.nil_append, hcs] at heq
      refine ⟨by rw [← heq]; rfl, habsolute, ?_⟩
      intro other rest' htrusted hunder
      have hle := hlargest _ (mem_valid htrusted hunder)
      rw [hne, List.length_nil, Nat.le_zero, List.length_eq_zero_iff] at hle
      exact hunder.1 hle
    · exact Or.inl (Or.inr ⟨habsolute, canonical, spelling, hroot,
        ⟨hlisted, isValid_iff.mp hvalid⟩, ⟨hne, heq⟩,
        fun other rest' htrusted hunder => hlargest _ (mem_valid htrusted hunder)⟩)

theorem inWorkspace_error {supplied : Path} {e : String}
    (hroot : canonicalize root = .ok canonical) (habsolute : isAbsolute supplied = true)
    (h : inWorkspace canonicalize root aliases supplied = .error e) :
    Outside canonicalize root canonical aliases supplied := by
  rw [inWorkspace_eq hroot] at h
  cases hmax : maxByKey (fun x => (components x.1).length)
      ((matching root canonical aliases supplied).filter fun x =>
        isValid canonicalize root canonical x.1) with
  | some x => rw [hmax] at h; cases h
  | none =>
    refine ⟨habsolute, fun spelling rest htrusted hunder => ?_⟩
    have hmem := mem_valid htrusted hunder
    rw [maxByKey_none hmax] at hmem
    exact List.not_mem_nil hmem

end choice

/-! ### The walk -/

theorem foldlM_follow (names : List Name) (moves : List (Move Name)) :
    (moves.map Component.ofMove).foldlM follow names =
      match Walk.walk names moves with
      | some relative => .ok relative
      | none => .error "path must remain relative to the workspace root" := by
  induction moves generalizing names with
  | nil => rfl
  | cons x moves ih =>
    cases x with
    | down name => exact ih (names ++ [name])
    | stay => exact ih names
    | up =>
      rw [Walk.walk]
      by_cases hempty : names.isEmpty = true
      · have hfollow : follow names .parentDir =
            .error "path must remain relative to the workspace root" := if_pos hempty
        rw [if_pos hempty, List.map_cons, Component.ofMove, List.foldlM_cons, hfollow]
        rfl
      · have hfollow : follow names .parentDir = .ok names.dropLast := if_neg hempty
        rw [if_neg hempty, List.map_cons, Component.ofMove, List.foldlM_cons, hfollow]
        exact ih names.dropLast

/-! ### The path that is returned -/

theorem pieces_name {front : Path} (h : slash ∉ front) : pieces front = [⟨front, h⟩] := by
  induction front with
  | nil => rfl
  | cons b front ih =>
    obtain ⟨hb, hfront⟩ := not_or.mp fun hmem => h (List.mem_cons.mpr hmem)
    have hne : b ≠ slash := fun heq => hb heq.symm
    simp only [pieces, dif_neg hne, ih hfront]

theorem pieces_append {front : Path} (h : slash ∉ front) (path : Path) :
    pieces (front ++ slash :: path) = ⟨front, h⟩ :: pieces path := by
  induction front with
  | nil => rw [List.nil_append, pieces, dif_pos rfl]
  | cons b front ih =>
    obtain ⟨hb, hfront⟩ := not_or.mp fun hmem => h (List.mem_cons.mpr hmem)
    have hne : b ≠ slash := fun heq => hb heq.symm
    simp only [List.cons_append, pieces, dif_neg hne, ih hfront]

theorem component?_name (name : Name) (h : slash ∉ name.bytes) :
    component? ⟨name.bytes, h⟩ = some (.normal name) := by
  unfold component?
  rw [dif_neg name.nonempty, dif_neg name.notDot, dif_neg name.notDotDot]

theorem joined_cons (name next : Name) (names : List Name) :
    joined (name :: next :: names) = name.bytes ++ slash :: joined (next :: names) := rfl

theorem pieces_joined (name : Name) (names : List Name) :
    ∃ ps, pieces (joined (name :: names)) = ⟨name.bytes, name.noSlash⟩ :: ps ∧
      ps.filterMap component? = names.map .normal := by
  induction names generalizing name with
  | nil => exact ⟨[], pieces_name name.noSlash, rfl⟩
  | cons next names ih =>
    obtain ⟨ps, hps, hnames⟩ := ih next
    refine ⟨⟨next.bytes, next.noSlash⟩ :: ps, ?_, ?_⟩
    · rw [joined_cons, pieces_append name.noSlash, hps]
    · rw [List.filterMap_cons_some (component?_name next next.noSlash), hnames, List.map_cons]

/-- The path of some names has them as its components. -/
theorem components_joined (names : List Name) : components (joined names) = names.map .normal := by
  cases names with
  | nil => rfl
  | cons name names =>
    obtain ⟨ps, hps, hnames⟩ := pieces_joined name names
    have hrelative : isAbsolute (joined (name :: names)) = false := by
      obtain ⟨b, front, hbytes⟩ := List.exists_cons_of_ne_nil name.nonempty
      have hhead : (joined (name :: names)).head? = some b := by
        cases names with
        | nil => rw [joined, hbytes, List.head?_cons]
        | cons next names => rw [joined_cons, hbytes, List.cons_append, List.head?_cons]
      have hb : b ≠ slash := by
        intro heq
        have hslash := name.noSlash
        rw [hbytes, heq] at hslash
        exact hslash List.mem_cons_self
      rw [isAbsolute, hhead]
      simpa using hb
    have hdot : ¬(pieces (joined (name :: names))).head?.map Subtype.val = some dot := by
      rw [hps]
      exact fun heq => name.notDot (Option.some.inj heq)
    rw [components, hrelative, if_neg Bool.false_ne_true, if_neg hdot, hps, List.nil_append,
      List.filterMap_cons_some (component?_name name name.noSlash), hnames, List.map_cons]

/-! ### The result -/

section result

variable {canonicalize : Path → Except String Path} {root : Path} {aliases : List Path}

/-- What is relative to the root is a walk from there. -/
theorem Relative.moves {supplied : Path} {rest : List Component}
    (h : Relative canonicalize root aliases supplied rest) :
    ∃ moves : List (Move Name), rest = moves.map Component.ofMove := by
  rcases h with ⟨hrelative, rfl⟩ | ⟨habsolute, canonical, spelling, -, -, hunder, -⟩
  · exact exists_moves (components_relative hrelative)
  · exact hunder.moves habsolute

/-- The components that are followed, from a text on. -/
def taken (canonicalize : Path → Except String Path) (root : Path) (aliases : List Path)
    (supplied : Path) : Except String (List Component) :=
  if isAbsolute supplied then inWorkspace canonicalize root aliases supplied
  else .ok (components supplied)

theorem path_eq {input : Json} {text : List Char} (htext : asStr (input.index "path") = some text) :
    path canonicalize input root aliases =
      (taken canonicalize root aliases (Utf8.encode text)).bind fun supplied =>
        (supplied.foldlM follow []).bind fun relative =>
          if relative.isEmpty then .error "path must name a file" else .ok relative := by
  unfold path
  rw [htext]
  rfl

/-- What is followed is relative to the root, or the path is outside. -/
theorem taken_ok {supplied : Path} {rest : List Component}
    (h : taken canonicalize root aliases supplied = .ok rest) :
    Relative canonicalize root aliases supplied rest ∨ rest.head? = some .rootDir ∧
      ∀ canonical, canonicalize root = .ok canonical →
        Outside canonicalize root canonical aliases supplied := by
  unfold taken at h
  by_cases habsolute : isAbsolute supplied = true
  · rw [if_pos habsolute] at h
    cases hroot : canonicalize root with
    | error e =>
      rw [inWorkspace, hroot] at h
      cases h
    | ok canonical =>
      refine (inWorkspace_ok hroot habsolute h).imp id fun houtside => ⟨houtside.1, ?_⟩
      intro other hother
      rw [← Except.ok.inj hother]
      exact houtside.2
  · rw [if_neg habsolute] at h
    exact Or.inl (Or.inl ⟨Bool.eq_false_iff.mpr habsolute, (Except.ok.inj h).symm⟩)

/-- Following the moves of a walk. -/
theorem follow_walk {moves : List (Move Name)} {relative : List Name}
    (h : ((moves.map Component.ofMove).foldlM follow []).bind (fun relative =>
      if relative.isEmpty then .error "path must name a file" else .ok relative) =
        (.ok relative : Except String (List Name))) :
    relative ≠ [] ∧ Walk.EndsAt moves relative := by
  rw [foldlM_follow] at h
  cases hwalk : Walk.walk [] moves with
  | none => rw [hwalk] at h; cases h
  | some names =>
    rw [hwalk] at h
    simp only [Except.bind] at h
    split_ifs at h with hempty
    obtain rfl := Except.ok.inj h
    exact ⟨fun hnil => hempty (List.isEmpty_iff.mpr hnil), Walk.walk_eq_some_iff.mp hwalk⟩

/-- A walk is refused when it climbs or ends where it started. -/
theorem follow_refused {moves : List (Move Name)} {e : String}
    (h : ((moves.map Component.ofMove).foldlM follow []).bind (fun relative =>
      if relative.isEmpty then .error "path must name a file" else .ok relative) =
        (.error e : Except String (List Name))) :
    Walk.Climbs moves ∨ Walk.EndsAt moves [] := by
  rw [foldlM_follow] at h
  cases hwalk : Walk.walk [] moves with
  | none => exact Or.inl (Walk.walk_eq_none_iff.mp hwalk)
  | some names =>
    rw [hwalk] at h
    simp only [Except.bind] at h
    split_ifs at h with hempty
    obtain rfl := List.isEmpty_iff.mp hempty
    exact Or.inr (Walk.walk_eq_some_iff.mp hwalk)

/-- No path that starts at the root again is followed. -/
theorem follow_rootDir {cs : List Component} (h : cs.head? = some .rootDir) :
    cs.foldlM follow [] = .error "path must remain relative to the workspace root" := by
  obtain ⟨rest, rfl⟩ := List.head?_eq_some_iff.mp h
  rfl

/-- A path is accepted as the place below the root where it ends, and refused only
    if it is outside, climbs above the root, or ends there. -/
theorem path_confined (canonicalize : Path → Except String Path) (input : Json) (root : Path)
    (aliases : List Path) :
    (∀ r, path canonicalize input root aliases = .ok r →
      r ≠ [] ∧ components (joined r) = r.map .normal ∧
      ∃ text moves, asStr (input.index "path") = some text ∧
        Relative canonicalize root aliases (Utf8.encode text) (moves.map Component.ofMove) ∧
        Walk.EndsAt moves r) ∧
    ∀ text canonical e, asStr (input.index "path") = some text →
      canonicalize root = .ok canonical →
      path canonicalize input root aliases = .error e →
        Outside canonicalize root canonical aliases (Utf8.encode text) ∨
        ∃ moves, Relative canonicalize root aliases (Utf8.encode text)
            (moves.map Component.ofMove) ∧ (Walk.Climbs moves ∨ Walk.EndsAt moves []) := by
  constructor
  · intro r h
    cases htext : asStr (input.index "path") with
    | none =>
      rw [path, htext] at h
      cases h
    | some text =>
      rw [path_eq htext] at h
      cases htaken : taken canonicalize root aliases (Utf8.encode text) with
      | error e => rw [htaken] at h; cases h
      | ok rest =>
        rw [htaken] at h
        rcases taken_ok htaken with hrelative | ⟨hroot, -⟩
        · obtain ⟨moves, rfl⟩ := hrelative.moves
          obtain ⟨hne, hends⟩ := follow_walk h
          exact ⟨hne, components_joined r, text, moves, rfl, hrelative, hends⟩
        · simp only [Except.bind, follow_rootDir hroot] at h
          cases h
  · intro text canonical e htext hcanonical h
    rw [path_eq htext] at h
    cases htaken : taken canonicalize root aliases (Utf8.encode text) with
    | error e' =>
      left
      unfold taken at htaken
      by_cases habsolute : isAbsolute (Utf8.encode text) = true
      · rw [if_pos habsolute] at htaken
        exact inWorkspace_error hcanonical habsolute htaken
      · rw [if_neg habsolute] at htaken
        cases htaken
    | ok rest =>
      rw [htaken] at h
      rcases taken_ok htaken with hrelative | ⟨-, houtside⟩
      · obtain ⟨moves, rfl⟩ := hrelative.moves
        exact Or.inr ⟨moves, hrelative, follow_refused h⟩
      · exact Or.inl (houtside canonical hcanonical)

end result

/-- A workspace with a symlink to it. -/
def workspace (spelling : Path) : Except String Path :=
  if spelling = Utf8.encode "/work".toList ∨ spelling = Utf8.encode "/link".toList then
    .ok (Utf8.encode "/work".toList)
  else .error "No such file or directory (os error 2)"

def notes : Name where
  bytes := Utf8.encode "notes".toList
  noSlash := by decide
  nonempty := by decide
  notDot := by decide
  notDotDot := by decide

/-- A path in the other spelling, with a way up. -/
def notesInput : Json := .object [("path", .string "/link/./drafts/../notes")]

theorem path_confined_notes : ∃ text moves, asStr (notesInput.index "path") = some text ∧
    Relative workspace (Utf8.encode "/work".toList)
      [Utf8.encode "/work".toList, Utf8.encode "/link".toList] (Utf8.encode text)
      (moves.map Component.ofMove) ∧ Walk.EndsAt moves [notes] :=
  ((path_confined workspace notesInput (Utf8.encode "/work".toList)
    [Utf8.encode "/work".toList, Utf8.encode "/link".toList]).1 [notes] rfl).2.2

end Kyora.Files
