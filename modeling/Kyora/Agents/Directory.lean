import Kyora.Basic
import Kyora.Framework.Forest
import Kyora.Framework.SortedMap
import Kyora.Text

/-! # Addresses in the agent directory

  The directory lists the agents of a run, each below the one that spawned it.
  An agent may address its parent, its children and its siblings, by id or by
  name, and may cancel the agents below it. Three functions say so in three ways;
  what they say is one relation of the tree.
-/

namespace Kyora.Agents

/-- The directory entry of an agent. Node states, tokens and receivers are numbers. -/
structure Entry where
  parent : Option NodeId
  name : String
  state : Nat
  cancel : Nat
  /-- Where its outcome appears; the root has none. -/
  outcome : Option Nat

/-- The agents by their ids. -/
abbrev Directory : Type := SortedMap NodeId Entry

/-! ### Registration -/

/-- `Runtime::register`. -/
def register (d : Directory) (id : NodeId) (parent : Option NodeId) (name : String)
    (state cancel : Nat) (outcome : Option Nat) : Directory :=
  d.insert id ⟨parent, name, state, cancel, outcome⟩

/-- The directories of runs: the root, and agents with ids of their own that agents
    spawn. -/
inductive Built : Directory → Prop where
  | root (state cancel : Nat) : Built (register .empty 0 none "root" state cancel none)
  | spawn {d : Directory} {parent id : NodeId} {caller : Entry} (before : Built d)
    (hparent : d.get? parent = some caller) (hfresh : d.get? id = none) (name : String)
    (state cancel outcome : Nat) :
    Built (register d id (some parent) name state cancel (some outcome))

/-- Parent links. -/
def links (d : Directory) : Forest.Links := fun id => (d.get? id).map Entry.parent

/-! ### Addresses -/

/-- The value of a decimal digit. -/
def digit? (c : Char) : Option Nat := if c.isDigit then some (c.toNat - 48) else none

/-- `parse` as an unsigned number of 32 bits; a plus sign may lead. -/
def parseId (text : List Char) : Option NodeId :=
  let digits := match text with
    | '+' :: rest => rest
    | _ => text
  if digits.isEmpty then none
  else
    (digits.mapM digit?).bind fun values =>
      let value := values.foldl (fun n d => 10 * n + d) 0
      if value < 2 ^ 32 then some value else none

/-- `strip_prefix('#')`, or the text as it is. -/
def stripHash (text : List Char) : List Char :=
  match text with
  | '#' :: rest => rest
  | _ => text

/-- The address without the white space around it. -/
def trimmed (address : String) : String := String.ofList (trim address.toList)

/-- Whether an agent is this one's parent, a child or a sibling, by its entry. -/
def isNear (me : NodeId) (parent : Option NodeId) (id : NodeId) (entry : Entry) : Bool :=
  some id == parent || entry.parent == some me || (parent.isSome && entry.parent == parent)

/-- `NodeCtx::resolve`: "parent", a node id such as "3" or "#3", or the name of the
    parent, a child or a sibling. Ids win over names. -/
def resolve (d : Directory) (me : NodeId) (address : String) : Except RecursionError NodeId :=
  let address := trimmed address
  let parent := (d.get? me).bind Entry.parent
  if address = "parent" then
    match parent with
    | some parent => .ok parent
    | none => .error (.invalidRequest "the root agent has no parent")
  else
    match parseId (stripHash address.toList) with
    | some id => .ok id
    | none =>
      let named := d.entries.filter fun x =>
        x.1 != me && x.2.name != "" && x.2.name == address && isNear me parent x.1 x.2
      match named with
      | [x] => .ok x.1
      | [] => .error (.invalidRequest ("unknown agent: " ++ address))
      | _ => .error (.invalidRequest ("ambiguous agent name: " ++ address ++ "; use its id"))

/-- `NodeCtx::kin`: the recipient's state and the spawn a message to it belongs to. -/
def kin (d : Directory) (me to_ : NodeId) : Except RecursionError (Nat × Option NodeId) :=
  match d.get? me, d.get? to_ with
  | some mine, some target =>
    if to_ = me then .error (.invalidRequest "cannot send a message to yourself")
    else if mine.parent = some to_ then .ok (target.state, some me)
    else if target.parent = some me then .ok (target.state, some to_)
    else if mine.parent.isSome ∧ mine.parent = target.parent then .ok (target.state, none)
    else
      .error (.invalidRequest ("agent " ++ toString to_ ++
        " is not this agent's parent, child or sibling"))
  | _, _ => .error (.invalidRequest ("unknown agent: " ++ toString to_))

/-- The walk from an agent to its ancestors, up to the caller. `none` when there are
    more rounds. -/
def ancestorLoop (d : Directory) (me : NodeId) : Nat → Option NodeId → Option (Option NodeId)
  | _, none => some none
  | fuel, some id =>
    if id = me then some (some id)
    else
      match fuel with
      | 0 => none
      | fuel + 1 => ancestorLoop d me fuel ((d.get? id).bind Entry.parent)

/-- The check of `NodeCtx::cancel_agent`, after the one that the caller is open: the
    token and the receiver of the agent, and its parent. -/
def cancelAgent (d : Directory) (opened : Except RecursionError Unit) (me agent : NodeId) :
    Option (Except RecursionError (Nat × Nat × Option NodeId)) :=
  match opened with
  | .error e => some (.error e)
  | .ok () =>
    match d.get? agent with
    | none => some (.error (.invalidRequest ("unknown agent: " ++ toString agent)))
    | some target =>
      (ancestorLoop d me d.entries.length target.parent).map fun ancestor =>
        match ancestor, target.outcome with
        | some _, some outcome =>
          if agent ≠ me then .ok (target.cancel, outcome, target.parent)
          else
            .error (.invalidRequest ("agent " ++ toString agent ++
              " is not a descendant of this agent"))
        | _, _ =>
          .error (.invalidRequest ("agent " ++ toString agent ++
            " is not a descendant of this agent"))

/-! ### The family of an agent -/

/-- `b` is the parent, a child or a sibling of `a`. -/
def Relative (d : Directory) (a b : NodeId) : Prop :=
  Forest.IsParent (links d) a b ∨ Forest.IsParent (links d) b a ∨
    a ≠ b ∧ ∃ p, Forest.IsParent (links d) a p ∧ Forest.IsParent (links d) b p

/-- The spawn between two relatives: the child's id between parent and child. -/
def Carries (d : Directory) (a b : NodeId) (spawn : Option NodeId) : Prop :=
  Forest.IsParent (links d) a b ∧ spawn = some a ∨
  Forest.IsParent (links d) b a ∧ spawn = some b ∨
  (a ≠ b ∧ ∃ p, Forest.IsParent (links d) a p ∧ Forest.IsParent (links d) b p) ∧ spawn = none

/-- A message from `a` to `b` is accepted, with this spawn. -/
def MayAddress (d : Directory) (a b : NodeId) (spawn : Option NodeId) : Prop :=
  ∃ state, kin d a b = .ok (state, spawn)

/-- `b` is a relative with this name. -/
def Named (d : Directory) (a : NodeId) (name : String) (b : NodeId) : Prop :=
  Relative d a b ∧ ∃ entry, d.get? b = some entry ∧ entry.name = name

/-- An address that is looked up as a name. -/
def IsName (address : String) : Prop :=
  trimmed address ≠ "parent" ∧ parseId (stripHash (trimmed address).toList) = none

/-- The agent is cancelled. -/
def Cancels (d : Directory) (me agent : NodeId) : Prop :=
  ∃ x, cancelAgent d (.ok ()) me agent = some (.ok x)

/-! ### Directories are trees -/

section built

variable {d : Directory} {a b : NodeId}

theorem isParent_iff {c p : NodeId} : Forest.IsParent (links d) c p ↔
    ∃ entry, d.get? c = some entry ∧ entry.parent = some p := by
  unfold Forest.IsParent links
  exact Option.map_eq_some_iff

theorem not_isParent_of_none {c : NodeId} (h : d.get? c = none) (p : NodeId) :
    ¬Forest.IsParent (links d) c p := by
  intro hp
  obtain ⟨entry, hentry, -⟩ := isParent_iff.mp hp
  rw [h] at hentry
  cases hentry

theorem not_isParent_of_top {c : NodeId} {entry : Entry} (h : d.get? c = some entry)
    (hparent : entry.parent = none) (p : NodeId) : ¬Forest.IsParent (links d) c p := by
  intro hp
  obtain ⟨entry', hentry', hp'⟩ := isParent_iff.mp hp
  obtain rfl := Option.some.inj (h.symm.trans hentry')
  rw [hparent] at hp'
  cases hp'

/-- The order of registration: it grows from a parent to its children and numbers the
    entries. -/
theorem Built.exists_rank (h : Built d) : ∃ rank, Forest.Ranked (links d) rank ∧
    ∀ id entry, d.get? id = some entry → rank id < d.entries.length := by
  induction h with
  | root state cancel =>
    refine ⟨fun _ => 0, ?_, fun _ _ _ => Nat.one_pos⟩
    intro id p hp
    obtain ⟨entry, hentry, hparent⟩ := isParent_iff.mp hp
    rw [register, SortedMap.get?_insert] at hentry
    split_ifs at hentry
    · rw [← Option.some.inj hentry] at hparent
      cases hparent
    · cases hentry
  | @spawn d parent id caller before hparent hfresh name state cancel outcome ih =>
    obtain ⟨rank, hranked, hbound⟩ := ih
    have hlength : (register d id (some parent) name state cancel (some outcome)).entries.length =
        d.entries.length + 1 := by
      have hnew : id ∉ d.keys := by
        intro hmem
        obtain ⟨entry, hentry⟩ := SortedMap.mem_keys_iff.mp hmem
        rw [hfresh] at hentry
        cases hentry
      exact (SortedMap.entries_insert_fresh _ hnew).length_eq
    have hget : ∀ i, (register d id (some parent) name state cancel (some outcome)).get? i =
        if i = id then some ⟨some parent, name, state, cancel, some outcome⟩ else d.get? i :=
      fun i => SortedMap.get?_insert d id _ i
    have hne : parent ≠ id := by
      rintro rfl
      rw [hfresh] at hparent
      cases hparent
    refine ⟨Function.update rank id d.entries.length, ?_, ?_⟩
    · intro i p hp
      obtain ⟨entry, hentry, hentryParent⟩ := isParent_iff.mp hp
      rw [hget] at hentry
      have hknown : ∀ {q : NodeId}, (links d q).isSome → q ≠ id →
          (links (register d id (some parent) name state cancel (some outcome)) q).isSome := by
        intro q hq hqne
        unfold links at hq ⊢
        rwa [hget, if_neg hqne]
      by_cases hi : i = id
      · -- the parent was registered before
        rw [if_pos hi] at hentry
        obtain rfl := Option.some.inj hentry
        obtain rfl := Option.some.inj hentryParent
        rw [hi, Function.update_self, Function.update_of_ne hne]
        exact ⟨hbound parent caller hparent, hknown (by unfold links; rw [hparent]; rfl) hne⟩
      · rw [if_neg hi] at hentry
        obtain ⟨hlt, hsome⟩ := hranked i p (isParent_iff.mpr ⟨entry, hentry, hentryParent⟩)
        have hpne : p ≠ id := by
          rintro rfl
          unfold links at hsome
          rw [hfresh] at hsome
          cases hsome
        rw [Function.update_of_ne hi, Function.update_of_ne hpne]
        exact ⟨hlt, hknown hsome hpne⟩
    · intro i entry hentry
      rw [hget] at hentry
      rw [hlength]
      by_cases hi : i = id
      · rw [hi, Function.update_self]
        exact Nat.lt_succ_self _
      · rw [if_neg hi] at hentry
        rw [Function.update_of_ne hi]
        exact Nat.lt_succ_of_lt (hbound i entry hentry)

/-- An agent below another one has an outcome. -/
theorem Built.outcome (h : Built d) {id p : NodeId} {entry : Entry}
    (hentry : d.get? id = some entry) (hparent : entry.parent = some p) :
    ∃ outcome, entry.outcome = some outcome := by
  induction h with
  | root state cancel =>
    rw [register, SortedMap.get?_insert] at hentry
    split_ifs at hentry
    · rw [← Option.some.inj hentry] at hparent
      cases hparent
    · cases hentry
  | @spawn d parent id' caller before _ hfresh name state cancel outcome ih =>
    rw [register, SortedMap.get?_insert] at hentry
    split_ifs at hentry
    · exact ⟨outcome, by rw [← Option.some.inj hentry]⟩
    · exact ih hentry

/-- The parent of an agent is registered and is another agent. -/
theorem Built.parent (h : Built d) {c p : NodeId} (hp : Forest.IsParent (links d) c p) :
    p ≠ c ∧ ∃ entry, d.get? p = some entry := by
  obtain ⟨rank, hranked, -⟩ := h.exists_rank
  obtain ⟨hlt, hsome⟩ := hranked c p hp
  refine ⟨fun heq => ?_, ?_⟩
  · rw [heq] at hlt
    exact Nat.lt_irrefl _ hlt
  · unfold links at hsome
    rw [Option.isSome_map] at hsome
    exact Option.isSome_iff_exists.mp hsome

/-- Of two agents only one is below the other. -/
theorem Built.antisymm (h : Built d) (hab : Forest.Below (links d) a b)
    (hba : Forest.Below (links d) b a) : a = b := by
  obtain ⟨rank, hranked, -⟩ := h.exists_rank
  rcases Forest.below_iff.mp hba with heq | ⟨p, hp, hbp⟩
  · exact heq
  · have hlt := (hranked a p hp).1
    have hle := hbp.rank_le hranked
    have hle' := hab.rank_le hranked
    omega

/-- A parent is no child, and no sibling either. -/
theorem Built.parent_only (h : Built d) (hab : Forest.IsParent (links d) a b) :
    ¬Forest.IsParent (links d) b a ∧
      ¬∃ p, Forest.IsParent (links d) a p ∧ Forest.IsParent (links d) b p := by
  have hbelow : Forest.Below (links d) b a := Relation.ReflTransGen.single hab
  constructor
  · intro hba
    exact (h.parent hab).1 (h.antisymm hbelow (Relation.ReflTransGen.single hba))
  · intro hsibling
    obtain ⟨p, hap, hbp⟩ := hsibling
    -- the common parent would be the parent itself
    obtain rfl : b = p := Option.some.inj (Option.some.inj (hab.symm.trans hap))
    exact (h.parent hbp).1 rfl

end built

/-! ### Who may be addressed -/

section kin

variable {d : Directory} {a b : NodeId} {spawn : Option NodeId}

theorem ok_iff {state : Nat} {spawn' : Option NodeId} :
    (∃ x, (.ok (state, spawn') : Except RecursionError (Nat × Option NodeId)) = .ok (x, spawn)) ↔
      spawn = spawn' := by
  constructor
  · intro h
    obtain ⟨x, h⟩ := h
    exact (Prod.mk.inj (Except.ok.inj h)).2.symm
  · intro h
    exact ⟨state, by rw [h]⟩

/-- What `kin` says about two registered agents. -/
theorem kin_eq {mine target : Entry} (hmine : d.get? a = some mine)
    (htarget : d.get? b = some target) :
    MayAddress d a b spawn ↔ b ≠ a ∧
      if mine.parent = some b then spawn = some a
      else if target.parent = some a then spawn = some b
      else mine.parent.isSome ∧ mine.parent = target.parent ∧ spawn = none := by
  unfold MayAddress kin
  rw [hmine, htarget]
  simp only
  by_cases hself : b = a
  · rw [if_pos hself]
    constructor
    · intro h
      obtain ⟨state, h⟩ := h
      cases h
    · intro h
      exact absurd hself h.1
  · rw [if_neg hself]
    refine Iff.trans ?_ (and_iff_right hself).symm
    by_cases hparent : mine.parent = some b
    · rw [if_pos hparent, if_pos hparent]
      exact ok_iff
    rw [if_neg hparent, if_neg hparent]
    by_cases hchild : target.parent = some a
    · rw [if_pos hchild, if_pos hchild]
      exact ok_iff
    rw [if_neg hchild, if_neg hchild]
    by_cases hsibling : mine.parent.isSome ∧ mine.parent = target.parent
    · rw [if_pos hsibling, ok_iff, ← and_assoc, and_iff_right hsibling]
    · rw [if_neg hsibling]
      constructor
      · intro h
        obtain ⟨state, h⟩ := h
        cases h
      · intro h
        exact absurd ⟨h.1, h.2.1⟩ hsibling

/-- `kin` accepts exactly the relatives, with the spawn between them. -/
theorem mayAddress_iff (h : Built d) : MayAddress d a b spawn ↔ Carries d a b spawn := by
  cases hmine : d.get? a with
  | none =>
    have hno := not_isParent_of_none hmine
    constructor
    · intro haddress
      obtain ⟨state, hkin⟩ := haddress
      unfold kin at hkin
      rw [hmine] at hkin
      cases hkin
    · intro hcarries
      rcases hcarries with ⟨hab, -⟩ | ⟨hba, -⟩ | ⟨⟨-, p, hap, -⟩, -⟩
      · exact absurd hab (hno b)
      · obtain ⟨-, entry, hentry⟩ := h.parent hba
        rw [hmine] at hentry
        cases hentry
      · exact absurd hap (hno p)
  | some mine =>
    cases htarget : d.get? b with
    | none =>
      have hno := not_isParent_of_none htarget
      constructor
      · intro haddress
        obtain ⟨state, hkin⟩ := haddress
        unfold kin at hkin
        rw [hmine, htarget] at hkin
        cases hkin
      · intro hcarries
        rcases hcarries with ⟨hab, -⟩ | ⟨hba, -⟩ | ⟨⟨-, p, -, hbp⟩, -⟩
        · obtain ⟨-, entry, hentry⟩ := h.parent hab
          rw [htarget] at hentry
          cases hentry
        · exact absurd hba (hno a)
        · exact absurd hbp (hno p)
    | some target =>
      have hup : ∀ p, Forest.IsParent (links d) a p ↔ mine.parent = some p := by
        intro p
        rw [isParent_iff, hmine]
        simp
      have hdown : ∀ p, Forest.IsParent (links d) b p ↔ target.parent = some p := by
        intro p
        rw [isParent_iff, htarget]
        simp
      rw [kin_eq hmine htarget]
      unfold Carries
      constructor
      · intro hkin
        obtain ⟨hne, hspawn⟩ := hkin
        split_ifs at hspawn with hparent hchild
        · exact Or.inl ⟨(hup b).mpr hparent, hspawn⟩
        · exact Or.inr (Or.inl ⟨(hdown a).mpr hchild, hspawn⟩)
        · obtain ⟨hsome, heq, hnone⟩ := hspawn
          obtain ⟨p, hp⟩ := Option.isSome_iff_exists.mp hsome
          exact Or.inr (Or.inr ⟨⟨hne.symm, p, (hup p).mpr hp, (hdown p).mpr (heq ▸ hp)⟩, hnone⟩)
      · intro hcarries
        rcases hcarries with ⟨hab, hspawn⟩ | ⟨hba, hspawn⟩ | ⟨⟨hne, p, hap, hbp⟩, hspawn⟩
        · exact ⟨(h.parent hab).1, by rw [if_pos ((hup b).mp hab)]; exact hspawn⟩
        · have hnot : ¬mine.parent = some b := fun hparent =>
            (h.parent_only ((hup b).mpr hparent)).1 hba
          refine ⟨(h.parent hba).1.symm, ?_⟩
          rw [if_neg hnot, if_pos ((hdown a).mp hba)]
          exact hspawn
        · have hnotParent : ¬mine.parent = some b := fun hparent =>
            (h.parent_only ((hup b).mpr hparent)).2 ⟨p, hap, hbp⟩
          have hnotChild : ¬target.parent = some a := fun hchild =>
            (h.parent_only ((hdown a).mpr hchild)).2 ⟨p, hbp, hap⟩
          have hp := (hup p).mp hap
          refine ⟨hne.symm, ?_⟩
          rw [if_neg hnotParent, if_neg hnotChild]
          exact ⟨by rw [hp]; rfl, hp.trans ((hdown p).mp hbp).symm, hspawn⟩

/-- The relation reads the same from both sides. -/
theorem carries_comm : Carries d a b spawn ↔ Carries d b a spawn := by
  unfold Carries
  have hsibling : (a ≠ b ∧ ∃ p, Forest.IsParent (links d) a p ∧ Forest.IsParent (links d) b p) ↔
      b ≠ a ∧ ∃ p, Forest.IsParent (links d) b p ∧ Forest.IsParent (links d) a p := by
    simp only [ne_comm, and_comm]
  rw [hsibling, or_left_comm]

theorem relative_iff : Relative d a b ↔ ∃ spawn, Carries d a b spawn := by
  unfold Relative Carries
  constructor
  · intro h
    rcases h with hab | hba | hsibling
    · exact ⟨_, Or.inl ⟨hab, rfl⟩⟩
    · exact ⟨_, Or.inr (Or.inl ⟨hba, rfl⟩)⟩
    · exact ⟨_, Or.inr (Or.inr ⟨hsibling, rfl⟩)⟩
  · intro h
    obtain ⟨spawn, h⟩ := h
    exact h.imp And.left (Or.imp And.left And.left)

end kin

/-! ### Names -/

section names

variable {d : Directory} {a b : NodeId}

/-- The agents that a name is matched with. -/
def matches_ (d : Directory) (me : NodeId) (name : String) : List (NodeId × Entry) :=
  d.entries.filter fun x => x.1 != me && x.2.name != "" && x.2.name == name &&
    isNear me ((d.get? me).bind Entry.parent) x.1 x.2

/-- An agent with such an entry is near exactly if it is a relative. -/
theorem isNear_iff {entry : Entry} (hentry : d.get? b = some entry) (hne : b ≠ a) :
    isNear a ((d.get? a).bind Entry.parent) b entry = true ↔ Relative d a b := by
  have hdown : ∀ p, Forest.IsParent (links d) b p ↔ entry.parent = some p := by
    intro p
    rw [isParent_iff, hentry]
    simp
  have hup : ∀ p, Forest.IsParent (links d) a p ↔ (d.get? a).bind Entry.parent = some p := by
    intro p
    rw [isParent_iff, Option.bind_eq_some_iff]
  unfold isNear Relative
  simp only [Bool.or_eq_true, beq_iff_eq, Bool.and_eq_true, hup, hdown, or_assoc]
  refine or_congr eq_comm (or_congr_right ?_)
  constructor
  · intro hsibling
    obtain ⟨p, hp⟩ := Option.isSome_iff_exists.mp hsibling.1
    exact ⟨hne.symm, p, hp, hsibling.2.trans hp⟩
  · intro hsibling
    obtain ⟨-, p, hp, hbp⟩ := hsibling
    exact ⟨by rw [hp]; rfl, hbp.trans hp.symm⟩

theorem mem_matches (h : Built d) {name : String} :
    (∃ entry, (b, entry) ∈ matches_ d a name) ↔ name ≠ "" ∧ Named d a name b := by
  unfold matches_ Named
  simp only [List.mem_filter, Bool.and_eq_true, bne_iff_ne, beq_iff_eq,
    ← SortedMap.get?_eq_some_iff]
  constructor
  · intro hmatch
    obtain ⟨entry, hentry, ⟨⟨hne, hempty⟩, hname⟩, hnear⟩ := hmatch
    exact ⟨hname ▸ hempty, (isNear_iff hentry hne).mp hnear, entry, hentry, hname⟩
  · intro hnamed
    obtain ⟨hempty, hrelative, entry, hentry, hname⟩ := hnamed
    have hne : b ≠ a := by
      rcases hrelative with hab | hba | hsibling
      · exact (h.parent hab).1
      · exact (h.parent hba).1.symm
      · exact hsibling.1.symm
    exact ⟨entry, hentry, ⟨⟨hne, hname ▸ hempty⟩, hname⟩, (isNear_iff hentry hne).mpr hrelative⟩

theorem resolve_name {address : String} (hname : IsName address) :
    resolve d a address =
      match matches_ d a (trimmed address) with
      | [x] => .ok x.1
      | [] => .error (.invalidRequest ("unknown agent: " ++ trimmed address))
      | _ => .error (.invalidRequest ("ambiguous agent name: " ++ trimmed address ++
          "; use its id")) := by
  unfold resolve
  simp only [if_neg hname.1, hname.2]
  rfl

/-- A name that is accepted is that of one relative. -/
theorem resolve_ok (h : Built d) {address : String} (hname : IsName address)
    (hresolve : resolve d a address = .ok b) :
    Named d a (trimmed address) b ∧ ∀ c, Named d a (trimmed address) c → c = b := by
  rw [resolve_name hname] at hresolve
  cases hmatches : matches_ d a (trimmed address) with
  | nil => rw [hmatches] at hresolve; cases hresolve
  | cons x rest =>
    cases rest with
    | cons y rest => rw [hmatches] at hresolve; cases hresolve
    | nil =>
      rw [hmatches] at hresolve
      have hx : x.1 = b := Except.ok.inj hresolve
      have hmem : (x.1, x.2) ∈ matches_ d a (trimmed address) := by
        rw [hmatches]
        exact List.mem_singleton_self x
      obtain ⟨hempty, hnamed⟩ := (mem_matches h).mp ⟨x.2, hmem⟩
      refine ⟨hx ▸ hnamed, fun c hc => ?_⟩
      obtain ⟨entry, hentry⟩ := (mem_matches h).mpr ⟨hempty, hc⟩
      rw [hmatches] at hentry
      rw [← hx, ← List.mem_singleton.mp hentry]

/-- A name that two relatives share is refused. -/
theorem resolve_ambiguous (h : Built d) {address : String} (hname : IsName address) {c : NodeId}
    (hb : Named d a (trimmed address) b) (hc : Named d a (trimmed address) c) (hne : b ≠ c) :
    ∃ e, resolve d a address = .error e := by
  cases hresolve : resolve d a address with
  | error e => exact ⟨e, rfl⟩
  | ok x =>
    obtain ⟨-, honly⟩ := resolve_ok h hname hresolve
    exact absurd ((honly b hb).trans (honly c hc).symm) hne

end names

/-! ### Cancelling -/

section cancelling

variable {d : Directory} {a b : NodeId}

/-- The walk to the ancestors ends, at the caller if it is one of them. -/
theorem ancestorLoop_eq {rank : NodeId → Nat} (hranked : Forest.Ranked (links d) rank)
    {fuel : Nat} {start : NodeId} (hfuel : rank start < fuel) (hstart : (links d start).isSome) :
    (Forest.Below (links d) a start → ancestorLoop d a fuel (some start) = some (some a)) ∧
      (¬Forest.Below (links d) a start → ancestorLoop d a fuel (some start) = some none) := by
  induction fuel generalizing start with
  | zero => omega
  | succ fuel ih =>
    by_cases heq : start = a
    · rw [ancestorLoop, if_pos heq, heq]
      exact ⟨fun _ => rfl, fun hnot => absurd (Forest.Below.refl a) hnot⟩
    obtain ⟨entry, hentry⟩ := Option.isSome_iff_exists.mp (by
      unfold links at hstart
      rwa [Option.isSome_map] at hstart)
    have hnext : ancestorLoop d a (fuel + 1) (some start) =
        ancestorLoop d a fuel entry.parent := by
      rw [ancestorLoop, if_neg heq]
      simp only [hentry, Option.bind_some]
    rw [hnext]
    cases hparent : entry.parent with
    | none =>
      have hnot := Forest.not_below_of_top (not_isParent_of_top hentry hparent) heq
      refine ⟨fun hbelow => absurd hbelow hnot, fun _ => ?_⟩
      cases fuel with
      | zero => rfl
      | succ fuel => rfl
    | some p =>
      have hp : Forest.IsParent (links d) start p := isParent_iff.mpr ⟨entry, hentry, hparent⟩
      obtain ⟨hlt, hsome⟩ := hranked start p hp
      rw [Forest.below_parent_iff hp heq]
      exact ih (by omega) hsome

theorem not_exists_ok {e : RecursionError} {P : Prop} (h : ¬P) :
    (∃ x, (.error e : Except RecursionError (Nat × Nat × Option NodeId)) = .ok x) ↔ P := by
  constructor
  · intro hok
    obtain ⟨x, hx⟩ := hok
    cases hx
  · intro hP
    exact absurd hP h

/-- The check ends, and it accepts exactly the agents below the caller. -/
theorem cancelAgent_iff (h : Built d) (me agent : NodeId) :
    ∃ result, cancelAgent d (.ok ()) me agent = some result ∧
      ((∃ x, result = .ok x) ↔ Forest.Below (links d) me agent ∧ agent ≠ me) := by
  obtain ⟨rank, hranked, hbound⟩ := h.exists_rank
  unfold cancelAgent
  cases htarget : d.get? agent with
  | none =>
    refine ⟨_, rfl, not_exists_ok fun hboth => ?_⟩
    exact Forest.not_below_of_top (not_isParent_of_none htarget) hboth.2 hboth.1
  | some target =>
    cases hparent : target.parent with
    | none =>
      have hloop : ancestorLoop d me d.entries.length none = some none := by
        cases d.entries.length with
        | zero => rfl
        | succ n => rfl
      simp only [hparent, hloop, Option.map_some]
      refine ⟨_, rfl, not_exists_ok fun hboth => ?_⟩
      exact Forest.not_below_of_top (not_isParent_of_top htarget hparent) hboth.2 hboth.1
    | some p =>
      have hp : Forest.IsParent (links d) agent p := isParent_iff.mpr ⟨target, htarget, hparent⟩
      obtain ⟨-, entry, hentry⟩ := h.parent hp
      obtain ⟨outcome, houtcome⟩ := h.outcome htarget hparent
      have hknown : (links d p).isSome := by
        unfold links
        rw [hentry]
        rfl
      obtain ⟨hfound, hnotFound⟩ :=
        @ancestorLoop_eq d me rank hranked _ p (hbound p entry hentry) hknown
      rw [and_congr_left fun hne => Forest.below_parent_iff hp hne]
      by_cases hbelow : Forest.Below (links d) me p
      · simp only [hparent, hfound hbelow, Option.map_some, houtcome]
        refine ⟨_, rfl, ?_⟩
        by_cases hne : agent ≠ me
        · rw [if_pos hne]
          exact ⟨fun _ => ⟨hbelow, hne⟩, fun _ => ⟨_, rfl⟩⟩
        · rw [if_neg hne]
          exact not_exists_ok fun hboth => hne hboth.2
      · simp only [hparent, hnotFound hbelow, Option.map_some]
        exact ⟨_, rfl, not_exists_ok fun hboth => hbelow hboth.1⟩

end cancelling

/-! ### The result -/

/-- What the three functions agree on. -/
structure Addressing (d : Directory) : Prop where
  symmetric : ∀ a b spawn, MayAddress d a b spawn ↔ MayAddress d b a spawn
  irreflexive : ∀ a spawn, ¬MayAddress d a a spawn
  exact : ∀ a b spawn, MayAddress d a b spawn ↔ Carries d a b spawn
  /-- An address that is accepted as a name denotes one relative, whom `kin` accepts. -/
  name : ∀ a b address, IsName address → resolve d a address = .ok b →
    Named d a (trimmed address) b ∧ (∀ c, Named d a (trimmed address) c → c = b) ∧
      ∃ spawn, MayAddress d a b spawn
  ambiguous : ∀ a b c address, IsName address → Named d a (trimmed address) b →
    Named d a (trimmed address) c → b ≠ c → ∃ e, resolve d a address = .error e
  walkEnds : ∀ me agent, ∃ result, cancelAgent d (.ok ()) me agent = some result
  cancels : ∀ me agent, Cancels d me agent ↔ Forest.Below (links d) me agent ∧ agent ≠ me
  /-- Never an ancestor, nor the caller itself. -/
  notAbove : ∀ me agent, Forest.Below (links d) agent me → ¬Cancels d me agent
  notSibling : ∀ me agent p, Forest.IsParent (links d) me p →
    Forest.IsParent (links d) agent p → ¬Cancels d me agent
  /-- A leaf call is not registered. -/
  notLeaf : ∀ me agent, d.get? agent = none → ¬Cancels d me agent

/-- In every directory of a run addressing follows the family, both ways, and exactly
    the agents below the caller can be cancelled. -/
theorem addressing {d : Directory} (h : Built d) : Addressing d := by
  have hcancels : ∀ me agent, Cancels d me agent ↔
      Forest.Below (links d) me agent ∧ agent ≠ me := by
    intro me agent
    obtain ⟨result, hresult, hiff⟩ := cancelAgent_iff h me agent
    rw [← hiff, Cancels, hresult]
    simp only [Option.some.injEq]
  constructor
  · intro a b spawn
    rw [mayAddress_iff h, mayAddress_iff h, carries_comm]
  · intro a spawn haddress
    have hrelative := relative_iff.mpr ⟨spawn, (mayAddress_iff h).mp haddress⟩
    rcases hrelative with haa | haa | hsibling
    · exact (h.parent haa).1 rfl
    · exact (h.parent haa).1 rfl
    · exact hsibling.1 rfl
  · exact fun a b spawn => mayAddress_iff h
  · intro a b address hname hresolve
    obtain ⟨hnamed, honly⟩ := resolve_ok h hname hresolve
    obtain ⟨spawn, hcarries⟩ := relative_iff.mp hnamed.1
    exact ⟨hnamed, honly, spawn, (mayAddress_iff h).mpr hcarries⟩
  · exact fun a b c address hname hb hc hne => resolve_ambiguous h hname hb hc hne
  · intro me agent
    obtain ⟨result, hresult, -⟩ := cancelAgent_iff h me agent
    exact ⟨result, hresult⟩
  · exact hcancels
  · intro me agent habove hcancel
    obtain ⟨hbelow, hne⟩ := (hcancels me agent).mp hcancel
    exact hne (h.antisymm habove hbelow)
  · intro me agent p hme hagent hcancel
    obtain ⟨hbelow, hne⟩ := (hcancels me agent).mp hcancel
    obtain ⟨rank, hranked, -⟩ := h.exists_rank
    exact hne (Forest.sibling_unique hranked hagent hme (Forest.Below.refl agent) hbelow)
  · intro me agent hleaf hcancel
    obtain ⟨hbelow, hne⟩ := (hcancels me agent).mp hcancel
    exact Forest.not_below_of_top (not_isParent_of_none hleaf) hne hbelow

/-- Two agents of one name, and an agent below the first. -/
def family : Directory :=
  register (register (register (register .empty 0 none "root" 0 0 none)
    1 (some 0) "x" 1 1 (some 1)) 2 (some 0) "x" 2 2 (some 2)) 3 (some 1) "" 3 3 (some 3)

theorem built_family : Built family :=
  .spawn (.spawn (.spawn (.root 0 0) rfl rfl "x" 1 1 1) rfl rfl "x" 2 2 2) rfl rfl "" 3 3 3

theorem addressing_family : (∀ spawn, ¬MayAddress family 3 3 spawn) ∧
    (∀ spawn, MayAddress family 1 2 spawn ↔ MayAddress family 2 1 spawn) ∧
    (Cancels family 0 3 ↔ Forest.Below (links family) 0 3 ∧ 3 ≠ 0) :=
  ⟨(addressing built_family).irreflexive 3, (addressing built_family).symmetric 1 2,
    (addressing built_family).cancels 0 3⟩

end Kyora.Agents
