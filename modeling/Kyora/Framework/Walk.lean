import Mathlib.Data.List.Infix
import Mathlib.Logic.Relation

/-! # Walks in a tree

  A walk goes down by a name, stays, or goes up. What it means is that a way down
  that is taken back at once can be left out, as can staying. A machine that keeps
  the names it went down, and refuses to go up from the start, finds where the walk
  ends; it refuses exactly the walks that climb above their start on the way.
-/

universe u

/-- One move of a walk. -/
inductive Move (Name : Type u) where
  | down (name : Name)
  | stay
  | up
  deriving DecidableEq, Repr

namespace Walk

variable {Name : Type u}

/-! ### What a walk means -/

/-- One detour less. -/
inductive Shorter : List (Move Name) → List (Move Name) → Prop where
  | stay (before after : List (Move Name)) :
    Shorter (before ++ .stay :: after) (before ++ after)
  | back (before : List (Move Name)) (name : Name) (after : List (Move Name)) :
    Shorter (before ++ .down name :: .up :: after) (before ++ after)

/-- The walk ends below its start, by these names. -/
def EndsAt (moves : List (Move Name)) (names : List Name) : Prop :=
  Relation.ReflTransGen Shorter moves (names.map .down)

def downs (moves : List (Move Name)) : Nat := moves.countP fun
  | .down _ => true
  | _ => false

def ups (moves : List (Move Name)) : Nat := moves.countP fun
  | .up => true
  | _ => false

@[simp] theorem downs_down (name : Name) (moves : List (Move Name)) :
    downs (.down name :: moves) = downs moves + 1 := List.countP_cons_of_pos rfl

@[simp] theorem ups_down (name : Name) (moves : List (Move Name)) :
    ups (.down name :: moves) = ups moves := List.countP_cons_of_neg Bool.false_ne_true

@[simp] theorem downs_up (moves : List (Move Name)) : downs (.up :: moves) = downs moves :=
  List.countP_cons_of_neg Bool.false_ne_true

@[simp] theorem ups_up (moves : List (Move Name)) : ups (.up :: moves) = ups moves + 1 :=
  List.countP_cons_of_pos rfl

/-- At some point the walk is above its start. -/
def Climbs (moves : List (Move Name)) : Prop := ∃ front, front <+: moves ∧ downs front < ups front

/-! ### The machine -/

/-- The walk from a place on; `none` when it would leave the start upwards. -/
def walk (names : List Name) : List (Move Name) → Option (List Name)
  | [] => some names
  | .down name :: moves => walk (names ++ [name]) moves
  | .stay :: moves => walk names moves
  | .up :: moves => if names.isEmpty then none else walk names.dropLast moves

theorem walk_append (names : List Name) (xs ys : List (Move Name)) :
    walk names (xs ++ ys) = (walk names xs).bind fun names => walk names ys := by
  induction xs generalizing names with
  | nil => rfl
  | cons x xs ih =>
    cases x with
    | down name => exact ih (names ++ [name])
    | stay => exact ih names
    | up =>
      rw [List.cons_append, walk, walk]
      by_cases hempty : names.isEmpty = true
      · rw [if_pos hempty, if_pos hempty]
        rfl
      · rw [if_neg hempty, if_neg hempty]
        exact ih names.dropLast

/-- A detour changes nothing. -/
theorem walk_shorter {moves moves' : List (Move Name)} (h : Shorter moves moves')
    (names : List Name) : walk names moves = walk names moves' := by
  cases h with
  | stay before after =>
    rw [walk_append, walk_append]
    rfl
  | back before name after =>
    rw [walk_append, walk_append]
    congr 1
    funext names
    -- the name that was added is taken away again
    have hne : (names ++ [name]).isEmpty = false := by simp
    rw [walk, walk, if_neg (by rw [hne]; exact Bool.false_ne_true), List.dropLast_concat]

theorem walk_downs (names names' : List Name) :
    walk names (names'.map .down) = some (names ++ names') := by
  induction names' generalizing names with
  | nil => rw [List.append_nil, List.map_nil, walk]
  | cons name names' ih => rw [List.map_cons, walk, ih, ← List.append_cons]

theorem reaches_of_walk {moves : List (Move Name)} {names names' : List Name}
    (h : walk names moves = some names') :
    Relation.ReflTransGen Shorter (names.map .down ++ moves) (names'.map .down) := by
  induction moves generalizing names with
  | nil =>
    obtain rfl := Option.some.inj h
    rw [List.append_nil]
  | cons x moves ih =>
    cases x with
    | down name =>
      have hrest := @ih (names ++ [name]) h
      rwa [List.map_append, List.append_assoc] at hrest
    | stay => exact (@ih names h).head (Shorter.stay _ _)
    | up =>
      rw [walk] at h
      by_cases hempty : names.isEmpty = true
      · rw [if_pos hempty] at h
        cases h
      · rw [if_neg hempty] at h
        obtain ⟨front, name, rfl⟩ := List.eq_nil_or_concat names |>.resolve_left
          fun hnil => hempty (List.isEmpty_iff.mpr hnil)
        rw [List.concat_eq_append, List.dropLast_concat] at h
        rw [List.concat_eq_append, List.map_append, List.append_assoc]
        exact (ih h).head (Shorter.back _ name _)

/-- The machine finds where a walk ends. -/
theorem walk_eq_some_iff {moves : List (Move Name)} {names : List Name} :
    walk [] moves = some names ↔ EndsAt moves names := by
  constructor
  · exact fun h => reaches_of_walk h
  · intro h
    have hsame : ∀ {moves moves' : List (Move Name)},
        Relation.ReflTransGen Shorter moves moves' → walk [] moves = walk [] moves' := by
      intro moves moves' hreach
      induction hreach with
      | refl => rfl
      | tail _ hstep ih => exact ih.trans (walk_shorter hstep [])
    rw [hsame h, walk_downs, List.nil_append]

/-- A walk ends at one place at most. -/
theorem EndsAt.unique {moves : List (Move Name)} {names names' : List Name}
    (h : EndsAt moves names) (h' : EndsAt moves names') : names = names' :=
  Option.some.inj ((walk_eq_some_iff.mpr h).symm.trans (walk_eq_some_iff.mpr h'))

theorem walk_eq_none_iff' {moves : List (Move Name)} {names : List Name} :
    walk names moves = none ↔
      ∃ front, front <+: moves ∧ names.length + downs front < ups front := by
  induction moves generalizing names with
  | nil =>
    constructor
    · intro h
      cases h
    · intro h
      obtain ⟨front, hfront, hlt⟩ := h
      obtain rfl := List.prefix_nil.mp hfront
      exact absurd hlt (Nat.not_lt_zero _)
  | cons x moves ih =>
    -- a front of the walk is empty or starts with its first move
    have hfronts : (∃ front, front <+: x :: moves ∧ names.length + downs front < ups front) ↔
        ∃ front, front <+: moves ∧ names.length + downs (x :: front) < ups (x :: front) := by
      constructor
      · intro h
        obtain ⟨front, hfront, hlt⟩ := h
        cases front with
        | nil => exact absurd hlt (Nat.not_lt_zero _)
        | cons y front =>
          obtain ⟨rfl, hrest⟩ := List.cons_prefix_cons.mp hfront
          exact ⟨front, hrest, hlt⟩
      · intro h
        obtain ⟨front, hfront, hlt⟩ := h
        exact ⟨x :: front, List.cons_prefix_cons.mpr ⟨rfl, hfront⟩, hlt⟩
    rw [hfronts]
    cases x with
    | down name =>
      rw [walk, ih]
      refine exists_congr fun front => and_congr_right fun _ => ?_
      rw [downs_down, ups_down, List.length_append, List.length_singleton]
      omega
    | stay =>
      rw [walk, ih]
      rfl
    | up =>
      rw [walk]
      by_cases hempty : names.isEmpty = true
      · obtain rfl := List.isEmpty_iff.mp hempty
        rw [if_pos hempty]
        exact ⟨fun _ => ⟨[], List.nil_prefix, Nat.zero_lt_one⟩, fun _ => rfl⟩
      · have hpos : 0 < names.length := List.length_pos_iff.mpr fun hnil =>
          hempty (List.isEmpty_iff.mpr hnil)
        rw [if_neg hempty, ih, List.length_dropLast]
        refine exists_congr fun front => and_congr_right fun _ => ?_
        rw [downs_up, ups_up]
        omega

/-- The machine refuses exactly the walks that climb. -/
theorem walk_eq_none_iff {moves : List (Move Name)} : walk [] moves = none ↔ Climbs moves := by
  rw [walk_eq_none_iff', Climbs]
  refine exists_congr fun front => and_congr_right fun _ => ?_
  rw [List.length_nil, Nat.zero_add]

end Walk
