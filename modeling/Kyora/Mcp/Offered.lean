import Mathlib.Algebra.BigOperators.Group.List.Lemmas
import Kyora.Mcp.Pages

/-! # No tool disappears silently

  What a server lists and the configuration exposes is offered, or a warning
  says why it is not: one for each tool whose name holds a credential value, and
  one for each name that several tools map to. The three parts make up the whole.
-/

namespace Kyora.Mcp

/-- The tools the configuration exposes. -/
def exposed (config : ServerConfig) (listed : List RemoteTool) : List RemoteTool :=
  listed.filter fun tool => config.exposes tool.name

/-- Whether a tool cannot be named without a credential value. -/
def Hiding.hides (secrets : Hiding) (digest : String → List UInt8) (server : String)
    (tool : RemoteTool) : Bool :=
  secrets.foundIn tool.name || secrets.foundIn (toolName digest server tool.name)

/-- The exposed tools that can be named. -/
def visible (digest : String → List UInt8) (secrets : Hiding) (server : String)
    (config : ServerConfig) (listed : List RemoteTool) : List McpTool :=
  ((exposed config listed).filter fun tool => !secrets.hides digest server tool).map
    (McpTool.new digest server)

/-- The names that several tools map to, in order. -/
def shared (tools : List McpTool) : List String :=
  (tools.map McpTool.name).dedup.mergeSort.filter fun name => 1 < (remotes tools name).length

/-- The warning about a tool that cannot be named. -/
def hiddenWarning (secrets : Hiding) (tool : RemoteTool) : String :=
  "tool " ++ secrets.redact tool.name ++
    " is left out because its name contains a credential value"

/-- The warning about a name that several tools map to. -/
def sharedWarning (secrets : Hiding) (tools : List McpTool) (name : String) : String :=
  secrets.redact ("tools " ++ ", ".intercalate (remotes tools name) ++ " all map to " ++ name ++
    "; none of them is offered")

section

variable {digest : String → List UInt8} {secrets : Hiding} {server : String}
  {config : ServerConfig} {listed : List RemoteTool}

theorem mem_shared {tools : List McpTool} {name : String} :
    name ∈ shared tools ↔ 1 < (tools.map McpTool.name).count name := by
  rw [shared, List.mem_filter, List.mem_mergeSort, List.mem_dedup, decide_eq_true_eq,
    length_remotes]
  refine ⟨fun h => h.2, fun h => ⟨?_, h⟩⟩
  exact List.count_pos_iff.mp (by omega)

/-- What the collision check takes away are whole groups of tools. -/
theorem length_listing (redact : String → String) (tools : List McpTool)
    (warnings : List String) :
    tools.length = (Listing.new redact tools warnings).tools.length +
      ((shared tools).map fun name => (remotes tools name).length).sum := by
  have hperm := (List.mergeSort_perm (tools.map McpTool.name).dedup (· ≤ ·)).filter
    fun name => decide (1 < (remotes tools name).length)
  have hgroups : ((shared tools).map fun name => (remotes tools name).length).sum =
      (tools.map McpTool.name).countP
        fun name => decide (1 < (tools.map McpTool.name).count name) := by
    rw [shared, (hperm.map _).sum_eq]
    simp only [length_remotes]
    exact List.sum_map_count_dedup_filter_eq_countP _ _
  have honce : (Listing.new redact tools warnings).tools.length =
      (tools.map McpTool.name).countP
        fun name => !decide (1 < (tools.map McpTool.name).count name) := by
    rw [Listing.new, ← List.countP_eq_length_filter, List.countP_map]
    refine List.countP_congr fun tool htool => ?_
    -- a tool's own name occurs at least once
    have hpos : 0 < (tools.map McpTool.name).count tool.name :=
      List.count_pos_iff.mpr (List.mem_map_of_mem htool)
    simp only [length_remotes, beq_iff_eq, Function.comp, Bool.not_eq_true',
      decide_eq_false_iff_not]
    omega
  rw [hgroups, honce, Nat.add_comm]
  have hall := List.length_eq_countP_add_countP
    (p := fun name => decide (1 < (tools.map McpTool.name).count name))
    (l := tools.map McpTool.name)
  rw [List.length_map] at hall
  rw [hall]
  congr 1
  apply List.countP_congr
  intro name _
  simp

theorem list_eq (digest : String → List UInt8) (secrets : Hiding) (server : String)
    (config : ServerConfig) (listed : List RemoteTool) :
    list digest secrets server config listed =
      Listing.new secrets.redact (visible digest secrets server config listed)
        (((exposed config listed).filter (secrets.hides digest server)).map
          (hiddenWarning secrets)) := rfl

/-- An exposed tool that can be named is offered or shares its name. -/
theorem offered_or_shared {tools : List McpTool} {tool : McpTool} (h : tool ∈ tools)
    (redact : String → String) (warnings : List String) :
    tool ∈ (Listing.new redact tools warnings).tools ∨ tool.name ∈ shared tools := by
  have hpos : 0 < (tools.map McpTool.name).count tool.name :=
    List.count_pos_iff.mpr (List.mem_map_of_mem h)
  by_cases honce : (tools.map McpTool.name).count tool.name = 1
  · exact .inl (mem_listing.mpr ⟨h, honce⟩)
  · exact .inr (mem_shared.mpr (by omega))

/-- Every tool that is listed and exposed is offered, has a warning of its own or
    is named in the one warning about its group, and the numbers add up. What is
    offered keeps the order of the server. -/
theorem tools_accounted (digest : String → List UInt8) (secrets : Hiding) (server : String)
    (config : ServerConfig) (listed : List RemoteTool) :
    (list digest secrets server config listed).tools.Sublist
        (visible digest secrets server config listed) ∧
      (exposed config listed).length =
        (list digest secrets server config listed).tools.length +
        ((exposed config listed).filter (secrets.hides digest server)).length +
        ((shared (visible digest secrets server config listed)).map fun name =>
          (remotes (visible digest secrets server config listed) name).length).sum ∧
      (list digest secrets server config listed).warnings.length =
        ((exposed config listed).filter (secrets.hides digest server)).length +
        (shared (visible digest secrets server config listed)).length ∧
      ∀ tool ∈ exposed config listed,
        McpTool.new digest server tool ∈ (list digest secrets server config listed).tools ∨
        hiddenWarning secrets tool ∈ (list digest secrets server config listed).warnings ∨
        ∃ name, tool.name ∈ remotes (visible digest secrets server config listed) name ∧
          sharedWarning secrets (visible digest secrets server config listed) name ∈
            (list digest secrets server config listed).warnings := by
  have hwarnings : (list digest secrets server config listed).warnings =
      ((exposed config listed).filter (secrets.hides digest server)).map (hiddenWarning secrets) ++
        (shared (visible digest secrets server config listed)).map
          (sharedWarning secrets (visible digest secrets server config listed)) := rfl
  refine ⟨List.filter_sublist, ?_, ?_, ?_⟩
  · have hparts := length_listing secrets.redact (visible digest secrets server config listed)
      (((exposed config listed).filter (secrets.hides digest server)).map (hiddenWarning secrets))
    have hvisible : (visible digest secrets server config listed).length +
        ((exposed config listed).filter (secrets.hides digest server)).length =
        (exposed config listed).length := by
      rw [visible, List.length_map, Nat.add_comm]
      exact (List.length_eq_length_filter_add _).symm
    rw [list_eq]
    omega
  · rw [hwarnings, List.length_append, List.length_map, List.length_map]
  · intro tool htool
    rw [hwarnings, list_eq]
    cases hhidden : secrets.hides digest server tool with
    | true =>
      right
      left
      apply List.mem_append_left
      exact List.mem_map_of_mem (List.mem_filter.mpr ⟨htool, hhidden⟩)
    | false =>
      have hmem : McpTool.new digest server tool ∈ visible digest secrets server config listed :=
        List.mem_map_of_mem (List.mem_filter.mpr ⟨htool, by rw [hhidden]; rfl⟩)
      rcases offered_or_shared hmem secrets.redact
        (((exposed config listed).filter (secrets.hides digest server)).map
          (hiddenWarning secrets)) with hoffered | hshared
      · exact .inl hoffered
      · right
        right
        refine ⟨(McpTool.new digest server tool).name, ?_, ?_⟩
        · exact List.mem_map.mpr
            ⟨_, List.mem_filter.mpr ⟨hmem, beq_iff_eq.mpr rfl⟩, rfl⟩
        · apply List.mem_append_right
          exact List.mem_map_of_mem hshared

end

end Kyora.Mcp
