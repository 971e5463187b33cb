import Kyora.Framework.Checks
import Kyora.Mcp.Names

/-! # The tools of the servers

  A server offers the tools it last listed, without those whose names collide.
  A node's toolset is made of the built-in tools and the tools of all running
  servers, and the command line starts the servers that could own a selected
  name. All of it relies on the prefix of a tool name belonging to one server.
-/

namespace Kyora.Mcp

/-! ### Listings -/

/-- A tool as its server lists it. -/
structure RemoteTool where
  name : String
  description : String
  inputSchema : Json

/-- One tool of one server, exposed under its namespaced name. -/
structure McpTool where
  /-- The tool's name on its server. -/
  remote : String
  spec : ToolSpec

/-- The model-visible, namespaced name. -/
def McpTool.name (tool : McpTool) : String := tool.spec.name

def McpTool.new (digest : String → List UInt8) (server : String) (tool : RemoteTool) :
    McpTool where
  remote := tool.name
  spec :=
    { name := toolName digest server tool.name
      description := tool.description
      inputSchema := tool.inputSchema
      largeInput := false }

/-- A server's tools, without those whose names collide. -/
structure Listing where
  tools : List McpTool
  warnings : List String

/-- The remote names that map to one name. -/
def remotes (tools : List McpTool) (name : String) : List String :=
  (tools.filter fun tool => tool.name == name).map McpTool.remote

/-- Leaves out every tool whose name another tool also maps to, rather than
    letting one silently shadow the other, and says so in a warning. -/
def Listing.new (redact : String → String) (tools : List McpTool) (warnings : List String) :
    Listing where
  tools := tools.filter fun tool => (remotes tools tool.name).length == 1
  warnings :=
    let names := (tools.map McpTool.name).dedup.mergeSort
    warnings ++ (names.filter fun name => 1 < (remotes tools name).length).map fun name =>
      redact ("tools " ++ ", ".intercalate (remotes tools name) ++ " all map to " ++ name ++
        "; none of them is offered")

/-- The settings of a server that choose its tools. -/
structure ServerConfig where
  /-- When set, only these server tool names are exposed. -/
  allowTools : Option (List String)
  /-- Server tool names that are never exposed, applied after `allowTools`. -/
  denyTools : List String
  /-- False keeps the entry without starting the server. -/
  enabled : Bool

/-- Whether a server-side tool name passes `allowTools` and `denyTools`. -/
def ServerConfig.exposes (config : ServerConfig) (tool : String) : Bool :=
  (match config.allowTools with
    | none => true
    | some allow => allow.any (· == tool)) && !config.denyTools.any (· == tool)

/-- The credential values of a server: whether one is in a text, and the text
    without them. -/
structure Hiding where
  foundIn : String → Bool
  redact : String → String

/-- The listing made of what a server answered. A tool that cannot be named
    without a credential is left out. -/
def list (digest : String → List UInt8) (secrets : Hiding) (server : String)
    (config : ServerConfig) (listed : List RemoteTool) : Listing :=
  let exposed := listed.filter fun tool => config.exposes tool.name
  let hidden := fun tool : RemoteTool =>
    secrets.foundIn tool.name || secrets.foundIn (toolName digest server tool.name)
  Listing.new secrets.redact
    ((exposed.filter fun tool => !hidden tool).map (McpTool.new digest server))
    ((exposed.filter hidden).map fun tool =>
      "tool " ++ secrets.redact tool.name ++
        " is left out because its name contains a credential value")

/-! ### Servers -/

/-- The servers of the configuration, by name. -/
structure McpConfig where
  servers : List (String × ServerConfig)
  /-- The entries of a map have different keys. -/
  distinct : (servers.map Prod.fst).Nodup

def McpConfig.validate (config : McpConfig) : Except String Unit :=
  config.servers.forM fun (name, _) => validateName name

/-- A running server with its last listing. -/
structure Server where
  name : String
  listing : Listing

/-- An entry's server, if it is enabled and starts. `answers` says what each
    server last answered, `none` for one that failed to start. -/
def start (digest : String → List UInt8) (secrets : String → Hiding)
    (answers : String → Option (List RemoteTool)) (entry : String × ServerConfig) :
    Option Server :=
  if entry.2.enabled then
    (answers entry.1).map fun listed =>
      ⟨entry.1, list digest (secrets entry.1) entry.1 entry.2 listed⟩
  else none

/-- The running servers, in name order. -/
def running (digest : String → List UInt8) (secrets : String → Hiding)
    (answers : String → Option (List RemoteTool)) (config : McpConfig) : List Server :=
  config.servers.filterMap (start digest secrets answers)

/-- Every tool a node would be offered now, before its selection applies. -/
def snapshot (base : List ToolSpec) (servers : List Server) : Except String Tool.Toolset :=
  Tool.Toolset.new (base ++ servers.flatMap fun server => server.listing.tools.map McpTool.spec)

/-! ### The command line -/

/-- The servers that a run with these `--tools` starts: the others offer none
    of the selected tools. -/
def started (tools : Option (List String)) (config : McpConfig) : McpConfig where
  servers := config.servers.filter fun (name, server) =>
    server.enabled && match tools with
      | none => true
      | some tools => tools.any fun tool => startsWith tool (toolPrefix name)
  distinct := config.distinct.sublist (List.filter_sublist.map Prod.fst)

/-- Rejects `--tools` names that neither a built-in tool nor any enabled server
    could provide. -/
def unknownTools (tools : Option (List String)) (config : McpConfig) (builtins : Tool.Toolset) :
    Except String Unit :=
  (tools.getD []).forM fun name =>
    let fromServer := config.servers.any fun (server, settings) =>
      settings.enabled && startsWith name (toolPrefix server)
    if (builtins.find? name).isNone && !fromServer then .error ("unknown tool: " ++ name)
    else .ok ()

/-! ### Distinct names -/

theorem validate_ok {config : McpConfig} (h : config.validate = .ok ()) :
    ∀ entry ∈ config.servers, ValidName entry.1 := fun entry hentry =>
  validateName_ok.mp (Checks.forM_eq_ok.mp h entry hentry)

theorem length_remotes (tools : List McpTool) (name : String) :
    (remotes tools name).length = (tools.map McpTool.name).count name := by
  rw [remotes, List.length_map, List.count, List.countP_map, List.countP_eq_length_filter]
  rfl

/-- What is left of a listing are the tools whose names occur once in it. -/
theorem mem_listing {redact : String → String} {tools : List McpTool} {warnings : List String}
    {tool : McpTool} :
    tool ∈ (Listing.new redact tools warnings).tools ↔
      tool ∈ tools ∧ (tools.map McpTool.name).count tool.name = 1 := by
  rw [Listing.new, List.mem_filter, length_remotes, beq_iff_eq]

/-- Elements of a list that occur once in it are different from each other. -/
theorem nodup_filter_count {α β : Type} [DecidableEq β] (f : α → β) (xs : List α) :
    ((xs.filter fun x => (xs.map f).count (f x) == 1).map f).Nodup := by
  rw [List.nodup_iff_count_le_one]
  intro y
  by_cases hy : y ∈ (xs.filter fun x => (xs.map f).count (f x) == 1).map f
  · obtain ⟨x, hx, rfl⟩ := List.mem_map.mp hy
    have honce := (List.mem_filter.mp hx).2
    rw [beq_iff_eq] at honce
    rw [← honce]
    exact (List.filter_sublist.map f).count_le (f x)
  · rw [List.count_eq_zero_of_not_mem hy]
    exact Nat.zero_le 1

theorem listing_nodup (redact : String → String) (tools : List McpTool) (warnings : List String) :
    ((Listing.new redact tools warnings).tools.map McpTool.name).Nodup := by
  have h := nodup_filter_count McpTool.name tools
  simp only [Listing.new, length_remotes]
  exact h

/-! ### Toolsets -/

/-- A server offers names of its own. -/
theorem mem_list {digest : String → List UInt8} {secrets : Hiding} {server : String}
    {config : ServerConfig} {listed : List RemoteTool} {tool : McpTool}
    (h : tool ∈ (list digest secrets server config listed).tools) :
    ∃ remote, tool.name = toolName digest server remote := by
  obtain ⟨hmem, -⟩ := mem_listing.mp h
  obtain ⟨remote, -, rfl⟩ := List.mem_map.mp hmem
  exact ⟨remote.name, rfl⟩

theorem start_some {digest : String → List UInt8} {secrets : String → Hiding}
    {answers : String → Option (List RemoteTool)} {entry : String × ServerConfig}
    {server : Server} (h : start digest secrets answers entry = some server) :
    server.name = entry.1 ∧ ∃ listed,
      server.listing = list digest (secrets entry.1) entry.1 entry.2 listed := by
  unfold start at h
  split at h
  next =>
    obtain ⟨listed, -, rfl⟩ := Option.map_eq_some_iff.mp h
    exact ⟨rfl, listed, rfl⟩
  next => cases h

/-- What is made of some elements carries a sublist of their labels. -/
theorem map_filterMap_sublist {α β γ : Type} {f : α → Option β} {g : β → γ} {label : α → γ}
    (h : ∀ x y, f x = some y → g y = label x) (xs : List α) :
    ((xs.filterMap f).map g).Sublist (xs.map label) := by
  induction xs with
  | nil => exact List.Sublist.slnil
  | cons x xs ih =>
    cases hx : f x with
    | none =>
      rw [List.filterMap_cons_none hx]
      exact ih.cons _
    | some y =>
      rw [List.filterMap_cons_some hx, List.map_cons, List.map_cons, h x y hx]
      exact ih.cons_cons _

/-- The running servers have different names. -/
theorem running_nodup (digest : String → List UInt8) (secrets : String → Hiding)
    (answers : String → Option (List RemoteTool)) (config : McpConfig) :
    ((running digest secrets answers config).map Server.name).Nodup :=
  config.distinct.sublist
    (map_filterMap_sublist (fun _ _ hstart => (start_some hstart).1) config.servers)

/-- Each of them has a valid name and offers different names of its own. -/
theorem mem_running {digest : String → List UInt8} {secrets : String → Hiding}
    {answers : String → Option (List RemoteTool)} {config : McpConfig} {server : Server}
    (hvalid : ∀ entry ∈ config.servers, ValidName entry.1)
    (h : server ∈ running digest secrets answers config) :
    ValidName server.name ∧ (server.listing.tools.map McpTool.name).Nodup ∧
      ∀ tool ∈ server.listing.tools, ∃ remote, tool.name = toolName digest server.name remote := by
  obtain ⟨entry, hentry, hstart⟩ := List.mem_filterMap.mp h
  obtain ⟨hname, listed, hlisting⟩ := start_some hstart
  rw [hlisting, hname]
  exact ⟨hvalid entry hentry, listing_nodup _ _ _, fun tool htool => mem_list htool⟩

/-- Names of different servers differ. -/
theorem Named.ne {digest : String → List UInt8} {server server' tool tool' : String}
    (h : Named digest server tool) (h' : Named digest server' tool') (hserver : ValidName server)
    (hne : server ≠ server') : toolName digest server tool ≠ toolName digest server' tool' := by
  intro heq
  have hother := h'.other server hserver hne
  rw [← heq, h.own] at hother
  cases hother

/-- Every name of a server starts like all of them. -/
theorem Named.start {digest : String → List UInt8} {server tool : String}
    (h : Named digest server tool) : startsWith (toolName digest server tool) "mcp__" = true := by
  have hown := h.own
  rw [startsWith, List.isPrefixOf_iff_prefix, toList_toolPrefix] at hown
  rw [startsWith, List.isPrefixOf_iff_prefix]
  exact (List.prefix_append _ _).trans hown

/-- The base tools and the tools of all running servers have different names. -/
theorem snapshot_ok {digest : String → List UInt8} {secrets : String → Hiding}
    {answers : String → Option (List RemoteTool)} {config : McpConfig}
    (hvalid : ∀ entry ∈ config.servers, ValidName entry.1) {base : List ToolSpec}
    (hbase : (base.map ToolSpec.name).Nodup)
    (hfree : ∀ spec ∈ base, startsWith spec.name "mcp__" = false) :
    ∃ tools, snapshot base (running digest secrets answers config) = .ok tools := by
  refine Tool.Toolset.new_ok ?_
  rw [List.map_append, List.map_flatMap, List.nodup_append]
  refine ⟨hbase, List.nodup_flatMap.mpr ⟨fun server hserver => ?_, ?_⟩, ?_⟩
  · rw [List.map_map]
    exact (mem_running hvalid hserver).2.1
  · have hnames := List.pairwise_map.mp (running_nodup digest secrets answers config)
    refine hnames.imp_of_mem fun {server server'} hserver hserver' hne name hname hname' => ?_
    simp only [List.map_map] at hname hname'
    obtain ⟨tool, htool, rfl⟩ := List.mem_map.mp hname
    obtain ⟨tool', htool', heq⟩ := List.mem_map.mp hname'
    obtain ⟨hown, -, hof⟩ := mem_running hvalid hserver
    obtain ⟨hown', -, hof'⟩ := mem_running hvalid hserver'
    obtain ⟨remote, hremote⟩ := hof tool htool
    obtain ⟨remote', hremote'⟩ := hof' tool' htool'
    have hsame : toolName digest server.name remote = toolName digest server'.name remote' :=
      (hremote.symm.trans heq.symm).trans hremote'
    exact (toolName_spec digest hown remote).ne (toolName_spec digest hown' remote') hown hne hsame
  · intro name hname other hother heq
    obtain ⟨spec, hspec, rfl⟩ := List.mem_map.mp hname
    obtain ⟨server, hserver, hmem⟩ := List.mem_flatMap.mp hother
    rw [List.map_map] at hmem
    obtain ⟨tool, htool, rfl⟩ := List.mem_map.mp hmem
    obtain ⟨hown, -, hof⟩ := mem_running hvalid hserver
    obtain ⟨remote, hremote⟩ := hof tool htool
    have hstart := (toolName_spec digest hown remote).start
    have hname : spec.name = toolName digest server.name remote := heq.trans hremote
    rw [← hname, hfree spec hspec] at hstart
    cases hstart

/-! ### The command line keeps what it needs -/

/-- A server that is enabled and owns the prefix of a selected name is started. -/
theorem mem_started {tools : Option (List String)} {config : McpConfig}
    {entry : String × ServerConfig} :
    entry ∈ (started tools config).servers ↔ entry ∈ config.servers ∧ entry.2.enabled = true ∧
      ∀ names, tools = some names →
        ∃ name ∈ names, startsWith name (toolPrefix entry.1) = true := by
  rw [started, List.mem_filter, Bool.and_eq_true]
  refine and_congr_right fun _ => and_congr_right fun _ => ?_
  cases tools with
  | none => simp
  | some names => simp [List.any_eq_true]

theorem find?_isSome {tools : Tool.Toolset} {name : String} :
    (tools.find? name).isSome = true ↔ name ∈ tools.names := by
  rw [Tool.Toolset.find?, List.find?_isSome, Tool.Toolset.names, List.mem_map]
  simp only [beq_iff_eq]

/-- An entry of the configuration is the only one whose prefix a name has. -/
theorem owner_unique {config : McpConfig} (hvalid : ∀ entry ∈ config.servers, ValidName entry.1)
    {name : String} {entry entry' : String × ServerConfig} (h : entry ∈ config.servers)
    (h' : entry' ∈ config.servers) (hown : startsWith name (toolPrefix entry.1) = true)
    (hown' : startsWith name (toolPrefix entry'.1) = true) : entry' = entry :=
  List.inj_on_of_nodup_map config.distinct h' h
    (startsWith_unique (hvalid entry h) (hvalid entry' h') hown hown')

/-- A name passes when a built-in tool has it or one server owns its prefix. -/
theorem unknownTools_ok {names : List String} {config : McpConfig} {builtins : Tool.Toolset}
    (hvalid : ∀ entry ∈ config.servers, ValidName entry.1) :
    unknownTools (some names) config builtins = .ok () ↔
      ∀ name ∈ names, name ∈ builtins.names ∨ ∃! entry, entry ∈ config.servers ∧
        entry.2.enabled = true ∧ startsWith name (toolPrefix entry.1) = true := by
  rw [unknownTools, Checks.forM_eq_ok]
  refine forall₂_congr fun name _ => ?_
  have hserver : (config.servers.any fun (server, settings) =>
        settings.enabled && startsWith name (toolPrefix server)) = true ↔
      ∃! entry, entry ∈ config.servers ∧ entry.2.enabled = true ∧
        startsWith name (toolPrefix entry.1) = true := by
    rw [List.any_eq_true]
    simp only [Bool.and_eq_true]
    constructor
    · rintro ⟨entry, hentry, henabled, hown⟩
      refine ⟨entry, ⟨hentry, henabled, hown⟩, ?_⟩
      rintro entry' ⟨hentry', -, hown'⟩
      exact owner_unique hvalid hentry hentry' hown hown'
    · rintro ⟨entry, ⟨hentry, henabled, hown⟩, -⟩
      exact ⟨entry, hentry, henabled, hown⟩
  rw [← hserver, ← find?_isSome]
  generalize (config.servers.any fun (server, settings) =>
    settings.enabled && startsWith name (toolPrefix server)) = fromServer
  cases builtins.find? name <;> cases fromServer <;> simp

/-! ### The naming law -/

/-- For every valid configuration, whatever the servers call their tools: names
    have the form every provider accepts and belong to one server, a listing has
    no two tools of one name, a toolset of base tools and server tools is always
    made, and the command line keeps every server that owns a selected name and
    accepts exactly the names that somebody can own. -/
theorem names_collision_free (digest : String → List UInt8) {config : McpConfig}
    (hvalid : config.validate = .ok ()) :
    (∀ entry ∈ config.servers, ∀ tool, Named digest entry.1 tool) ∧
    (∀ entry ∈ config.servers, ∀ entry' ∈ config.servers, entry.1 ≠ entry'.1 →
      ∀ tool tool', toolName digest entry.1 tool ≠ toolName digest entry'.1 tool') ∧
    (∀ redact tools warnings,
      ((Listing.new redact tools warnings).tools.map McpTool.name).Nodup ∧
      ∀ tool, tool ∈ (Listing.new redact tools warnings).tools ↔
        tool ∈ tools ∧ (tools.map McpTool.name).count tool.name = 1) ∧
    (∀ selected secrets answers base, (base.map ToolSpec.name).Nodup →
      (∀ spec ∈ base, startsWith spec.name "mcp__" = false) →
      ∃ tools, snapshot base (running digest secrets answers (started selected config)) =
        .ok tools) ∧
    (∀ selected, ∀ entry ∈ config.servers, entry.2.enabled = true →
      (∀ names, selected = some names → ∃ name ∈ names, ∃ tool,
        toolName digest entry.1 tool = name) →
      entry ∈ (started selected config).servers) ∧
    ∀ names builtins, unknownTools (some names) config builtins = .ok () ↔
      ∀ name ∈ names, name ∈ builtins.names ∨ ∃! entry, entry ∈ config.servers ∧
        entry.2.enabled = true ∧ startsWith name (toolPrefix entry.1) = true := by
  have hnames := validate_ok hvalid
  have hnamed := fun entry hentry => toolName_spec digest (hnames entry hentry)
  refine ⟨hnamed, fun entry hentry entry' hentry' hne tool tool' => ?_,
    fun redact tools warnings => ⟨listing_nodup redact tools warnings, fun tool => mem_listing⟩,
    fun selected secrets answers base hbase hfree => ?_,
    fun selected entry hentry henabled howns => ?_,
    fun names builtins => unknownTools_ok hnames⟩
  · exact (hnamed entry hentry tool).ne (hnamed entry' hentry' tool') (hnames entry hentry) hne
  · have hstarted : ∀ entry ∈ (started selected config).servers, ValidName entry.1 :=
      fun entry hentry => hnames entry (mem_started.mp hentry).1
    exact snapshot_ok hstarted hbase hfree
  · refine mem_started.mpr ⟨hentry, henabled, fun names hselected => ?_⟩
    obtain ⟨name, hname, tool, rfl⟩ := howns names hselected
    exact ⟨_, hname, (hnamed entry hentry tool).own⟩

/-- Two servers, one with a leading underscore. -/
def twoServers : McpConfig where
  servers := [("_a", ⟨none, [], true⟩), ("a", ⟨none, [], true⟩)]
  distinct := by decide

/-- A toolset of both is made, though one server lists a name twice. -/
theorem names_collision_free_two : ∃ tools,
    snapshot [⟨"bash", "", .null, false⟩] (running (fun _ => [0xDE, 0xAD, 0xBE, 0xEF])
      (fun _ => ⟨fun _ => false, id⟩)
      (fun _ => some [⟨"_b", "", .null⟩, ⟨"x.y", "", .null⟩, ⟨"x.y", "", .null⟩])
      (started none twoServers)) = .ok tools := by
  have hfree := names_collision_free (fun _ => [0xDE, 0xAD, 0xBE, 0xEF])
    (show twoServers.validate = .ok () by rfl)
  exact hfree.2.2.2.1 none _ _ [⟨"bash", "", .null, false⟩] (by simp)
    fun spec hspec => by
      obtain rfl := List.mem_singleton.mp hspec
      rfl

end Kyora.Mcp
