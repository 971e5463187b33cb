import Kyora.Framework.Separator
import Kyora.Tool.Toolset

/-! # Names of server tools

  A tool of an MCP server is offered as `mcp__<server>__<tool>`. Server names
  are restricted so that this prefix stays unambiguous, and tool names are
  cleaned, shortened and marked with a hash of the original where they had to
  be changed.
-/

namespace Kyora.Mcp

/-! ### Naming -/

def maxToolName : Nat := 64

def maxServerName : Nat := 32

/-- ASCII letters, digits, `_` and `-`. -/
def allowed (c : Char) : Bool := c.isAlphanum || c == '_' || c == '-'

/-- Server names become part of tool names, so they are restricted to characters
    every provider accepts and must keep the `mcp__<server>__` prefix
    unambiguous. -/
def validateName (name : String) : Except String Unit :=
  if name ≠ "" ∧ name.utf8ByteSize ≤ maxServerName ∧ name.toList.all allowed ∧
      ¬ ['_', '_'] <:+: name.toList ∧ name.toList.getLast? ≠ some '_' then .ok ()
  else .error ("invalid mcp server name: use 1 to " ++ toString maxServerName ++
    " ASCII letters, digits, '-' or '_', without '__' or a trailing '_'")

/-- The prefix of the names of a server's tools. -/
def toolPrefix (server : String) : String := "mcp__" ++ server ++ "__"

/-- `{byte:02x}`. -/
def hexByte (byte : UInt8) : String :=
  String.ofList [Nat.digitChar (byte.toNat / 16), Nat.digitChar (byte.toNat % 16)]

/-- The first four bytes of the digest. -/
def hashOf (digest : String → List UInt8) (tool : String) : String :=
  String.join (((digest tool).take 4).map hexByte)

/-- The model-visible name `mcp__<server>__<tool>`. When the tool name had to be
    changed or shortened, a hash of the original name is appended. -/
def toolName (digest : String → List UInt8) (server tool : String) : String :=
  let clean := tool.map fun c => if allowed c then c else '_'
  let name := toolPrefix server ++ clean
  if clean = tool ∧ tool ≠ "" ∧ name.utf8ByteSize ≤ maxToolName then name
  else
    let hash := hashOf digest tool
    let room := maxToolName -
      ("mcp__".utf8ByteSize + server.utf8ByteSize + "__".utf8ByteSize + 1 + hash.utf8ByteSize)
    let head := String.ofList (clean.toList.take room)
    toolPrefix server ++ head ++ "_" ++ hash

/-- `name.starts_with(prefix)`. -/
def startsWith (name start : String) : Bool := start.toList.isPrefixOf name.toList

/-! ### Valid servers -/

/-- What a valid server name looks like. -/
structure ValidName (name : String) : Prop where
  nonempty : name ≠ ""
  short : name.toList.length ≤ maxServerName
  allowed : ∀ c ∈ name.toList, allowed c = true
  separated : Separated '_' name.toList

/-- Characters that are allowed take one byte. -/
theorem utf8Size_of_allowed {c : Char} (h : Mcp.allowed c = true) : c.utf8Size = 1 := by
  have hascii : c.val ≤ 127 := by
    -- The ranges of `is_ascii_alphanumeric`, written out.
    have hranges : Mcp.allowed c =
        (decide ('A'.val ≤ c.val ∧ c.val ≤ 'Z'.val) ||
          (decide ('a'.val ≤ c.val) && decide (c.val ≤ 'z'.val)) ||
          (decide ('0'.val ≤ c.val) && decide (c.val ≤ '9'.val)) || c == '_' || c == '-') := rfl
    simp only [hranges, Bool.or_eq_true, beq_iff_eq, Bool.and_eq_true, decide_eq_true_eq] at h
    rcases h with (((⟨-, h⟩ | ⟨-, h⟩) | ⟨-, h⟩) | rfl) | rfl
    · exact UInt32.le_trans h (by decide)
    · exact UInt32.le_trans h (by decide)
    · exact UInt32.le_trans h (by decide)
    · decide
    · decide
  exact Char.utf8Size_eq_one_iff.mpr hascii

theorem utf8ByteSize_of_allowed {s : String} (h : ∀ c ∈ s.toList, Mcp.allowed c = true) :
    s.utf8ByteSize = s.toList.length := by
  have key : ∀ l : List Char, (∀ c ∈ l, Mcp.allowed c = true) →
      (String.ofList l).utf8ByteSize = l.length := by
    intro l
    induction l with
    | nil => intro _; rfl
    | cons c l ih =>
      intro hl
      obtain ⟨hc, hrest⟩ := List.forall_mem_cons.mp hl
      have hcons : String.ofList (c :: l) = String.singleton c ++ String.ofList l := by
        rw [← String.toList_inj]
        simp
      rw [hcons, String.utf8ByteSize_append, String.utf8ByteSize_singleton,
        utf8Size_of_allowed hc, ih hrest, List.length_cons, Nat.add_comm]
  have hkey := key s.toList h
  rwa [String.ofList_toList] at hkey

theorem validateName_ok {name : String} : validateName name = .ok () ↔ ValidName name := by
  have hshort : name.toList.all Mcp.allowed = true →
      name.utf8ByteSize = name.toList.length := fun hall =>
    utf8ByteSize_of_allowed (List.all_eq_true.mp hall)
  unfold validateName
  constructor
  · intro h
    split at h
    next hvalid =>
      obtain ⟨hnonempty, hsize, hall, hinside, hlast⟩ := hvalid
      exact ⟨hnonempty, hshort hall ▸ hsize, List.all_eq_true.mp hall, hinside, hlast⟩
    next => cases h
  · rintro ⟨hnonempty, hsize, hall, hinside, hlast⟩
    have hall := List.all_eq_true.mpr hall
    rw [if_pos ⟨hnonempty, (hshort hall).symm ▸ hsize, hall, hinside, hlast⟩]

/-! ### The name of a tool -/

theorem toList_toolPrefix (server : String) :
    (toolPrefix server).toList = "mcp__".toList ++ (server.toList ++ ['_', '_']) := by
  simp [toolPrefix]

theorem allowed_digitChar : ∀ n < 16, Mcp.allowed (Nat.digitChar n) = true := by decide

theorem hexByte_spec (byte : UInt8) :
    (∀ c ∈ (hexByte byte).toList, Mcp.allowed c = true) ∧ (hexByte byte).toList.length = 2 := by
  have hbyte : byte.toNat < 256 := byte.toNat_lt
  refine ⟨fun c hc => ?_, by simp [hexByte]⟩
  simp only [hexByte, String.toList_ofList, List.mem_cons, List.not_mem_nil, or_false] at hc
  rcases hc with rfl | rfl
  · exact allowed_digitChar _ (by omega)
  · exact allowed_digitChar _ (by omega)

theorem hashOf_spec (digest : String → List UInt8) (tool : String) :
    (∀ c ∈ (hashOf digest tool).toList, Mcp.allowed c = true) ∧
      (hashOf digest tool).toList.length ≤ 8 := by
  have key : ∀ bytes : List UInt8,
      (∀ c ∈ (String.join (bytes.map hexByte)).toList, Mcp.allowed c = true) ∧
        (String.join (bytes.map hexByte)).toList.length = 2 * bytes.length := by
    intro bytes
    rw [String.toList_join]
    induction bytes with
    | nil => exact ⟨(fun c hc => by cases hc), rfl⟩
    | cons byte bytes ih =>
      obtain ⟨hchars, hlength⟩ := hexByte_spec byte
      rw [List.map_cons, List.flatMap_cons]
      refine ⟨fun c hc => ?_, ?_⟩
      · rcases List.mem_append.mp hc with hc | hc
        · exact hchars c hc
        · exact ih.1 c hc
      · rw [List.length_append, hlength, ih.2, List.length_cons]
        omega
  obtain ⟨hchars, hlength⟩ := key ((digest tool).take 4)
  refine ⟨hchars, ?_⟩
  have htake : ((digest tool).take 4).length ≤ 4 := List.length_take_le 4 _
  rw [hashOf, hlength]
  omega

theorem allowed_clean (tool : String) :
    ∀ c ∈ (tool.map fun c => if Mcp.allowed c then c else '_').toList, Mcp.allowed c = true := by
  intro c hc
  rw [String.toList_map, List.mem_map] at hc
  obtain ⟨original, -, rfl⟩ := hc
  by_cases h : Mcp.allowed original = true
  · rw [if_pos h]
    exact h
  · rw [if_neg h]
    decide

theorem toolPrefix_spec {server : String} (hserver : ValidName server) :
    (∀ c ∈ (toolPrefix server).toList, Mcp.allowed c = true) ∧
      (toolPrefix server).toList.length = server.toList.length + 7 := by
  rw [toList_toolPrefix]
  refine ⟨fun c hc => ?_, ?_⟩
  · rcases List.mem_append.mp hc with hc | hc
    · have hall : "mcp__".toList.all Mcp.allowed = true := by decide
      exact List.all_eq_true.mp hall c hc
    · rcases List.mem_append.mp hc with hc | hc
      · exact hserver.allowed c hc
      · have hall : ['_', '_'].all Mcp.allowed = true := by decide
        exact List.all_eq_true.mp hall c hc
  · have hmcp : "mcp__".toList.length = 5 := rfl
    simp only [List.length_append, hmcp, List.length_cons, List.length_nil]
    omega

/-- A tool name is its server's prefix and allowed characters that fit. -/
theorem toolName_tail (digest : String → List UInt8) {server : String} (hserver : ValidName server)
    (tool : String) :
    ∃ tail, (toolName digest server tool).toList = (toolPrefix server).toList ++ tail ∧
      (∀ c ∈ tail, Mcp.allowed c = true) ∧
      (toolPrefix server).toList.length + tail.length ≤ maxToolName := by
  obtain ⟨hstarts, hlength⟩ := toolPrefix_spec hserver
  have hclean := allowed_clean tool
  rw [toolName]
  generalize (tool.map fun c => if Mcp.allowed c then c else '_') = clean at hclean ⊢
  simp only
  split
  next hkept =>
    refine ⟨clean.toList, String.toList_append, hclean, ?_⟩
    have hbytes : (toolPrefix server ++ clean).utf8ByteSize =
        (toolPrefix server).toList.length + clean.toList.length := by
      rw [utf8ByteSize_of_allowed, String.toList_append, List.length_append]
      intro c hc
      rw [String.toList_append] at hc
      rcases List.mem_append.mp hc with hc | hc
      · exact hstarts c hc
      · exact hclean c hc
    exact hbytes ▸ hkept.2.2
  next =>
    obtain ⟨hhash, hhashLength⟩ := hashOf_spec digest tool
    generalize hroom : maxToolName - ("mcp__".utf8ByteSize + server.utf8ByteSize +
      "__".utf8ByteSize + 1 + (hashOf digest tool).utf8ByteSize) = room
    refine ⟨clean.toList.take room ++ '_' :: (hashOf digest tool).toList, ?_, fun c hc => ?_, ?_⟩
    · simp only [String.toList_append, String.toList_ofList, List.append_assoc]
      rfl
    · rcases List.mem_append.mp hc with hc | hc
      · exact hclean c (List.mem_of_mem_take hc)
      · rcases List.mem_cons.mp hc with rfl | hc
        · decide
        · exact hhash c hc
    · -- A server name of 32 characters leaves room for the mark and the hash.
      have hserverSize := utf8ByteSize_of_allowed hserver.allowed
      have hhashSize := utf8ByteSize_of_allowed hhash
      have hshort := hserver.short
      have htake := List.length_take_le room clean.toList
      have hmcp : "mcp__".utf8ByteSize = 5 := rfl
      have hmark : "__".utf8ByteSize = 2 := rfl
      rw [hmcp, hmark] at hroom
      rw [List.length_append, List.length_cons]
      simp only [maxToolName, maxServerName] at hroom hshort ⊢
      omega

/-- A prefix belongs to one valid server. -/
theorem startsWith_unique {name server server' : String} (hserver : ValidName server)
    (hserver' : ValidName server') (h : startsWith name (toolPrefix server) = true)
    (h' : startsWith name (toolPrefix server') = true) : server' = server := by
  rw [startsWith, List.isPrefixOf_iff_prefix, toList_toolPrefix] at h h'
  obtain ⟨tail, htail⟩ := h
  rw [← htail, List.append_assoc, List.prefix_append_right_inj] at h'
  have hstarts : server'.toList ++ ['_', '_'] <+: server.toList ++ '_' :: '_' :: tail := by
    simpa using h'
  exact String.toList_inj.mp (hserver.separated.prefix_unique hserver'.separated hstarts)

/-- A tool name has the form every provider accepts, and the prefix of its own
    server and of no other. -/
structure Named (digest : String → List UInt8) (server tool : String) : Prop where
  allowed : ∀ c ∈ (toolName digest server tool).toList, allowed c = true
  short : (toolName digest server tool).toList.length ≤ 64
  own : startsWith (toolName digest server tool) (toolPrefix server) = true
  other : ∀ server', ValidName server' → server' ≠ server →
    startsWith (toolName digest server tool) (toolPrefix server') = false

theorem toolName_spec (digest : String → List UInt8) {server : String} (hserver : ValidName server)
    (tool : String) : Named digest server tool := by
  obtain ⟨tail, htail, hchars, hlength⟩ := toolName_tail digest hserver tool
  have hown : startsWith (toolName digest server tool) (toolPrefix server) = true := by
    rw [startsWith, List.isPrefixOf_iff_prefix, htail]
    exact List.prefix_append _ _
  refine ⟨fun c hc => ?_, ?_, hown, fun server' hserver' hne => ?_⟩
  · rw [htail] at hc
    rcases List.mem_append.mp hc with hc | hc
    · exact (toolPrefix_spec hserver).1 c hc
    · exact hchars c hc
  · rw [htail, List.length_append]
    exact hlength
  · rw [Bool.eq_false_iff]
    intro hstarts
    exact hne (startsWith_unique hserver hserver' hown hstarts)

end Kyora.Mcp
