import Kyora.Protocol
import Mathlib.Data.List.Sort
import Mathlib.Data.String.Basic

/-! # Toolsets

  Frozen tool registries. A toolset keeps its entries by name in name order, so
  no two of its tools have the same name. A node gets what the factory makes for
  it, cut down to the selection it was admitted with.
-/

namespace Kyora.Tool

/-- Tool name restriction; `none` selects all factory tools. -/
abbrev ToolSelection : Type := Option (List String)

/-- Immutable tool registry with specifications frozen at construction, in the
    order of its map. -/
structure Toolset where
  specs : List ToolSpec
  /-- Tools that check their input themselves. -/
  ownValidation : List String
  /-- The keys of the map, which are the names, increase. -/
  sorted : (specs.map ToolSpec.name).Pairwise (· < ·)

namespace Toolset

/-- The frozen names. -/
def names (tools : Toolset) : List String := tools.specs.map ToolSpec.name

/-- A toolset without tools. -/
def empty : Toolset := ⟨[], [], List.Pairwise.nil⟩

/-- `entries.get`. -/
def find? (tools : Toolset) (name : String) : Option ToolSpec :=
  tools.specs.find? (·.name == name)

/-! ### Construction -/

/-- `entries.insert` of a key that is not there keeps the order. -/
def insertSpec (spec : ToolSpec) : List ToolSpec → List ToolSpec
  | [] => [spec]
  | x :: rest => if spec.name < x.name then spec :: x :: rest else x :: insertSpec spec rest

theorem mem_insertSpec {spec x : ToolSpec} {specs : List ToolSpec} :
    x ∈ insertSpec spec specs ↔ x = spec ∨ x ∈ specs := by
  induction specs with
  | nil => simp [insertSpec]
  | cons y rest ih =>
    unfold insertSpec
    split
    · simp
    · simp only [List.mem_cons, ih]
      tauto

theorem insertSpec_sorted {spec : ToolSpec} {specs : List ToolSpec}
    (hnew : ∀ x ∈ specs, x.name ≠ spec.name)
    (hsorted : (specs.map ToolSpec.name).Pairwise (· < ·)) :
    ((insertSpec spec specs).map ToolSpec.name).Pairwise (· < ·) := by
  rw [List.pairwise_map] at hsorted ⊢
  induction specs with
  | nil => simp [insertSpec]
  | cons x rest ih =>
    obtain ⟨hx, hrest⟩ := List.pairwise_cons.mp hsorted
    obtain ⟨hne, hnewRest⟩ := List.forall_mem_cons.mp hnew
    unfold insertSpec
    split
    · next hlt =>
      apply List.pairwise_cons.mpr
      refine ⟨?_, hsorted⟩
      intro y hy
      rcases List.mem_cons.mp hy with rfl | hy
      · exact hlt
      · exact lt_trans hlt (hx y hy)
    · next hnlt =>
      apply List.pairwise_cons.mpr
      refine ⟨?_, ih hnewRest hrest⟩
      intro y hy
      rcases mem_insertSpec.mp hy with rfl | hy
      · exact lt_of_le_of_ne (not_lt.mp hnlt) hne
      · exact hx y hy

/-- A toolset with one more tool; `none` if its name is taken. -/
def insert? (tools : Toolset) (spec : ToolSpec) : Option Toolset :=
  if h : ∀ x ∈ tools.specs, x.name ≠ spec.name then
    some ⟨insertSpec spec tools.specs, tools.ownValidation, insertSpec_sorted h tools.sorted⟩
  else none

/-- `Toolset::new`: freezes specifications, rejecting duplicate names. -/
def new (specs : List ToolSpec) : Except String Toolset :=
  specs.foldlM (fun tools spec =>
    match tools.insert? spec with
    | some tools => .ok tools
    | none => .error "duplicate tool name") empty

/-- Adds a tool that validates its own input against its spec schema. -/
def withOwnValidation (tools : Toolset) (spec : ToolSpec) : Except String Toolset :=
  match tools.insert? spec with
  | some next => .ok { next with ownValidation := next.ownValidation ++ [spec.name] }
  | none => .error "duplicate tool name"

/-- One name of a selection. A name that is there already is replaced by the
    same entry. -/
def selectName (tools : Toolset) (selected : Toolset) (name : String) : Except String Toolset :=
  match tools.find? name with
  | none => .error ("unknown tool: " ++ name)
  | some spec => .ok ((selected.insert? spec).getD selected)

/-- Selects a subset, rejecting unknown requested names. -/
def select (tools : Toolset) : ToolSelection → Except String Toolset
  | none => .ok tools
  | some names => do
    let selected ← names.foldlM (selectName tools) empty
    return { selected with
      ownValidation := tools.ownValidation.filter (· ∈ selected.names) }

/-! ### Names -/

theorem mem_names_insert? {tools next : Toolset} {spec : ToolSpec}
    (h : tools.insert? spec = some next) {name : String} :
    name ∈ next.names ↔ name = spec.name ∨ name ∈ tools.names := by
  unfold insert? at h
  split at h
  · obtain rfl := Option.some.inj h
    simp only [names, List.mem_map, mem_insertSpec]
    constructor
    · rintro ⟨x, rfl | hx, rfl⟩
      · exact Or.inl rfl
      · exact Or.inr ⟨x, hx, rfl⟩
    · rintro (rfl | ⟨x, hx, rfl⟩)
      · exact ⟨spec, Or.inl rfl, rfl⟩
      · exact ⟨x, Or.inr hx, rfl⟩
  · cases h

/-- The names after adding a tool. -/
theorem mem_names_withOwnValidation {tools next : Toolset} {spec : ToolSpec}
    (h : tools.withOwnValidation spec = .ok next) {name : String} :
    name ∈ next.names ↔ name = spec.name ∨ name ∈ tools.names := by
  unfold withOwnValidation at h
  split at h
  · next grown hinsert =>
    obtain rfl := Except.ok.inj h
    exact mem_names_insert? hinsert
  · cases h

/-- Selecting one more name adds at most that name. -/
theorem mem_names_selectName {tools selected next : Toolset} {wanted : String}
    (h : tools.selectName selected wanted = .ok next) {name : String} (hname : name ∈ next.names) :
    name = wanted ∨ name ∈ selected.names := by
  unfold selectName at h
  split at h
  · cases h
  · next spec hfind =>
    obtain rfl := Except.ok.inj h
    have hspec : spec.name = wanted := by
      have hfound := List.find?_some hfind
      exact eq_of_beq hfound
    cases hinsert : selected.insert? spec with
    | none =>
      rw [hinsert] at hname
      exact Or.inr hname
    | some grown =>
      rw [hinsert] at hname
      rcases (mem_names_insert? hinsert).mp hname with rfl | hname
      · exact Or.inl hspec
      · exact Or.inr hname

/-- A selection grants at most the names it lists. -/
theorem mem_names_select {tools selected : Toolset} {wanted : List String}
    (h : tools.select (some wanted) = .ok selected) {name : String}
    (hname : name ∈ selected.names) : name ∈ wanted := by
  have hfold : ∀ (wanted : List String) (start last : Toolset),
      wanted.foldlM (selectName tools) start = .ok last →
        ∀ name ∈ last.names, name ∈ wanted ∨ name ∈ start.names := by
    intro wanted
    induction wanted with
    | nil =>
      intro start last hlast name hname
      obtain rfl := Except.ok.inj hlast
      exact Or.inr hname
    | cons first rest ih =>
      intro start last hlast name hname
      rw [List.foldlM_cons] at hlast
      cases hfirst : selectName tools start first with
      | error e =>
        rw [hfirst] at hlast
        cases hlast
      | ok next =>
        rw [hfirst] at hlast
        rcases ih next last hlast name hname with hrest | hnext
        · exact Or.inl (List.mem_cons_of_mem first hrest)
        · rcases mem_names_selectName hfirst hnext with rfl | hstart
          · exact Or.inl List.mem_cons_self
          · exact Or.inr hstart
  unfold select at h
  cases hlast : wanted.foldlM (selectName tools) empty with
  | error e =>
    simp only [hlast] at h
    cases h
  | ok last =>
    simp only [hlast] at h
    obtain rfl := Except.ok.inj h
    rcases hfold wanted empty last hlast name hname with hwanted | hempty
    · exact hwanted
    · exact absurd hempty List.not_mem_nil

/-- Tools with distinct names make a toolset. -/
theorem new_ok {specs : List ToolSpec} (h : (specs.map ToolSpec.name).Nodup) :
    ∃ tools, new specs = .ok tools := by
  have key : ∀ (specs : List ToolSpec) (start : Toolset), (specs.map ToolSpec.name).Nodup →
      (∀ spec ∈ specs, spec.name ∉ start.names) →
      ∃ tools, (specs.foldlM (fun tools spec =>
        match tools.insert? spec with
        | some tools => .ok tools
        | none => .error "duplicate tool name") start : Except String Toolset) = .ok tools := by
    intro specs
    induction specs with
    | nil => exact fun start _ _ => ⟨start, rfl⟩
    | cons spec specs ih =>
      intro start hnodup hnew
      rw [List.map_cons, List.nodup_cons] at hnodup
      have hfree : ∀ x ∈ start.specs, x.name ≠ spec.name := fun x hx heq =>
        hnew spec List.mem_cons_self (List.mem_map.mpr ⟨x, hx, heq⟩)
      obtain ⟨next, hnext⟩ : ∃ next, start.insert? spec = some next := ⟨_, dif_pos hfree⟩
      obtain ⟨tools, htools⟩ := ih next hnodup.2 fun other hother hin => by
        rcases (mem_names_insert? hnext).mp hin with heq | hin
        · exact hnodup.1 (List.mem_map.mpr ⟨other, hother, heq⟩)
        · exact hnew other (List.mem_cons_of_mem spec hother) hin
      refine ⟨tools, ?_⟩
      rw [List.foldlM_cons]
      simp only [hnext]
      exact htools
  exact key specs empty h fun spec _ => List.not_mem_nil

end Toolset

end Kyora.Tool
