import Kyora.Files.Edit
import Kyora.Framework.SortedMap
import Kyora.Framework.System
import Mathlib.Data.String.Basic
import Mathlib.Logic.Function.Basic

/-! # Concurrent edits and writes in one directory

  A directory maps names to inodes. A new content always comes as a new file that
  replaces the name, so the content of an inode never changes while a name refers
  to it, and the number of an inode is free again when no name does.

  `edit_file` locks by inode: it looks the inode up, leases the lock that a shared
  registry has for it, and looks again once it has the lock. It publishes its lock
  for the new inode while no other call can use the registry. `write_file` looks at
  neither. Every step of this model is one access to what the calls share: the
  directory, the registry or a lock.
-/

namespace Kyora.Files

/-! ### Calls -/

/-- `FileIdentity`. A directory is on one device. -/
abbrev Inode := Nat

abbrev Bytes := List UInt8

/-- A lock, by the order of its allocation. -/
abbrev LockId := Nat

/-- What a call asks for. -/
inductive Request where
  | edit (name : String) (input : Json)
  | write (name : String) (content : Bytes)

def Request.name : Request → String
  | .edit name _ | .write name _ => name

/-- What a call returns. -/
abbrev Report := Except String String

/-- The error for a name that is not in the directory. -/
def missing : Report := .error "ENOENT: No such file or directory"

/-- What a write reports. -/
def written (content : Bytes) : Report := .ok s!"wrote {content.length} bytes"

/-- A call that runs alone: the content it leaves and what it returns. -/
def Request.apply : Request → Option Bytes → Option Bytes × Report
  | .write _ content, _ => (some content, written content)
  | .edit _ _, none => (none, missing)
  | .edit _ input, some content => (some (Files.edit input content).1, (Files.edit input content).2)

/-- Where a call is. -/
inductive Phase where
  /-- Before its first step, or at the start of the loop of `edit`. -/
  | ready
  /-- The identity is read. -/
  | identified (identity : Inode)
  /-- `FileLock::acquire` is done. -/
  | leased (identity : Inode) (lock : LockId)
  /-- The lock is taken. -/
  | locked (identity : Inode) (lock : LockId)
  /-- The identity is the same again. -/
  | validated (identity : Inode) (lock : LockId)
  /-- The content is read and what replaces it is ready. -/
  | edited (identity : Inode) (lock : LockId) (read replaced : Bytes) (message : String)
  /-- The registry is taken. -/
  | publishing (identity : Inode) (lock : LockId) (read replaced : Bytes) (message : String)
  /-- The new file has the name. The registry is still taken. -/
  | renamed (lock : LockId) (message : String)
  /-- The body of the loop is over, with a report or to be run again. -/
  | leaving (lock : LockId) (next : Option Report)
  /-- The lock is free again, the lease is not. -/
  | unlocked (lock : LockId) (next : Option Report)
  | finished (report : Report)

/-! ### State -/

/-- The replacement of a file, for the record. -/
structure Rename where
  call : Nat
  /-- The content that the call had read. -/
  read : Option Bytes
  written : Bytes

structure State where
  dir : SortedMap String Inode
  contents : Inode → Bytes
  /-- The lock of an identity. It is a weak reference. -/
  registry : Inode → Option LockId
  /-- The strong references to locks, by call. -/
  leases : List (Nat × LockId)
  /-- The call that has taken a lock. -/
  guards : LockId → Option Nat
  /-- The call that has taken the registry. -/
  registryGuard : Option Nat
  nextLock : LockId
  phases : Nat → Phase
  /-- All replacements so far, in order. Nothing reads it. -/
  renames : List Rename

/-- The calls and the directory that they find. -/
structure Config where
  request : Nat → Request
  dir : SortedMap String Inode
  contents : Inode → Bytes

namespace State

def setPhase (s : State) (c : Nat) (phase : Phase) : State :=
  { s with phases := Function.update s.phases c phase }

/-- The content of a file. -/
def file (s : State) (name : String) : Option Bytes := (s.dir.get? name).map s.contents

/-- `Arc::strong_count(lock) > 0`. -/
def isLive (leases : List (Nat × LockId)) (lock : LockId) : Bool :=
  leases.any fun lease => lease.2 == lock

/-- `FileLock::acquire`: the lock of the registry if it is still alive, else a new
    one. -/
def acquire (s : State) (c : Nat) (identity : Inode) : State :=
  let (lock, s) : LockId × State :=
    match (s.registry identity).filter (isLive s.leases) with
    | some lock => (lock, s)
    | none =>
      (s.nextLock, { s with
        registry := Function.update s.registry identity (some s.nextLock)
        nextLock := s.nextLock + 1 })
  { s with leases := (c, lock) :: s.leases }.setPhase c (.leased identity lock)

/-- The drop of a `FileLock`. -/
def release (s : State) (c : Nat) : State :=
  let leases := s.leases.filter fun lease => lease.1 != c
  { s with
    leases
    registry := fun identity => (s.registry identity).filter (isLive leases) }

/-- The rename in `atomic_write`: a new file with some inode number gets the name.
    Until then only the call itself sees the file. -/
def replace (s : State) (name : String) (fresh : Inode) (rename : Rename) : State :=
  { s with
    dir := s.dir.insert name fresh
    contents := Function.update s.contents fresh rename.written
    renames := s.renames ++ [rename] }

end State

/-! ### Steps -/

/-- A scheduled call, and the inode number of the file it creates, if it does. -/
structure Label where
  call : Nat
  fresh : Inode

/-- The next action of `edit`. A call that waits for the registry or for a lock has
    none. -/
def stepEdit (s : State) (l : Label) (name : String) (input : Json) : Option State :=
  match s.phases l.call with
  | .ready =>
    match s.dir.get? name with
    | none => some (s.setPhase l.call (.finished missing))
    | some identity => some (s.setPhase l.call (.identified identity))
  | .identified identity =>
    if s.registryGuard.isSome then none else some (s.acquire l.call identity)
  | .leased identity lock =>
    if (s.guards lock).isSome then none
    else
      some ({ s with guards := Function.update s.guards lock (some l.call) }.setPhase l.call
        (.locked identity lock))
  | .locked identity lock =>
    match s.dir.get? name with
    | none => some (s.setPhase l.call (.leaving lock (some missing)))
    | some current =>
      if current ≠ identity then some (s.setPhase l.call (.leaving lock none))
      else some (s.setPhase l.call (.validated identity lock))
  | .validated identity lock =>
    match s.file name with
    | none => some (s.setPhase l.call (.leaving lock (some missing)))
    | some read =>
      match edit input read with
      | (_, .error error) => some (s.setPhase l.call (.leaving lock (some (.error error))))
      | (replaced, .ok message) =>
        some (s.setPhase l.call (.edited identity lock read replaced message))
  | .edited identity lock read replaced message =>
    if s.registryGuard.isSome then none
    else
      some ({ s with registryGuard := some l.call }.setPhase l.call
        (.publishing identity lock read replaced message))
  | .publishing _ lock read replaced message =>
    if l.fresh ∈ s.dir.values then none
    else
      some ((s.replace name l.fresh ⟨l.call, some read, replaced⟩).setPhase l.call
        (.renamed lock message))
  | .renamed lock message =>
    match s.dir.get? name with
    | none =>
      some ({ s with registryGuard := none }.setPhase l.call (.leaving lock (some missing)))
    | some current =>
      some ({ s with
        registry := Function.update s.registry current (some lock)
        registryGuard := none }.setPhase l.call (.leaving lock (some (.ok message))))
  | .leaving lock next =>
    some ({ s with guards := Function.update s.guards lock none }.setPhase l.call
      (.unlocked lock next))
  | .unlocked _ next =>
    if s.registryGuard.isSome then none
    else
      some ((s.release l.call).setPhase l.call (match next with
        | none => .ready
        | some report => .finished report))
  | .finished _ => none

/-- The action of `write_file`. -/
def stepWrite (s : State) (l : Label) (name : String) (content : Bytes) : Option State :=
  match s.phases l.call with
  | .ready =>
    if l.fresh ∈ s.dir.values then none
    else
      some ((s.replace name l.fresh ⟨l.call, none, content⟩).setPhase l.call
        (.finished (written content)))
  | _ => none

def step (cfg : Config) (s : State) (l : Label) : Option State :=
  match cfg.request l.call with
  | .edit name input => stepEdit s l name input
  | .write name content => stepWrite s l name content

def init (cfg : Config) : State where
  dir := cfg.dir
  contents := cfg.contents
  registry _ := none
  leases := []
  guards _ := none
  registryGuard := none
  nextLock := 0
  phases _ := .ready
  renames := []

def system (cfg : Config) : LTS.System State Label := ⟨init cfg, step cfg⟩

/-! ### What a step does -/

/-- The moves of an edit. -/
inductive Edits (s : State) (c : Nat) (fresh : Inode) (name : String) (input : Json) :
    State → Prop where
  | absent (hphase : s.phases c = .ready) (hdir : s.dir.get? name = none) :
      Edits s c fresh name input (s.setPhase c (.finished missing))
  | identify {identity : Inode} (hphase : s.phases c = .ready)
      (hdir : s.dir.get? name = some identity) :
      Edits s c fresh name input (s.setPhase c (.identified identity))
  | acquire {identity : Inode} (hphase : s.phases c = .identified identity)
      (hfree : s.registryGuard = none) :
      Edits s c fresh name input (s.acquire c identity)
  | lock {identity : Inode} {lock : LockId} (hphase : s.phases c = .leased identity lock)
      (hfree : s.guards lock = none) :
      Edits s c fresh name input
        ({ s with guards := Function.update s.guards lock (some c) }.setPhase c
          (.locked identity lock))
  | vanish {identity : Inode} {lock : LockId} (hphase : s.phases c = .locked identity lock)
      (hdir : s.dir.get? name = none) :
      Edits s c fresh name input (s.setPhase c (.leaving lock (some missing)))
  | stale {identity current : Inode} {lock : LockId}
      (hphase : s.phases c = .locked identity lock) (hdir : s.dir.get? name = some current)
      (hne : current ≠ identity) :
      Edits s c fresh name input (s.setPhase c (.leaving lock none))
  | validate {identity : Inode} {lock : LockId} (hphase : s.phases c = .locked identity lock)
      (hdir : s.dir.get? name = some identity) :
      Edits s c fresh name input (s.setPhase c (.validated identity lock))
  | lose {identity : Inode} {lock : LockId} (hphase : s.phases c = .validated identity lock)
      (hfile : s.file name = none) :
      Edits s c fresh name input (s.setPhase c (.leaving lock (some missing)))
  | refuse {identity : Inode} {lock : LockId} {read content : Bytes} {error : String}
      (hphase : s.phases c = .validated identity lock) (hfile : s.file name = some read)
      (hedit : edit input read = (content, .error error)) :
      Edits s c fresh name input (s.setPhase c (.leaving lock (some (.error error))))
  | read {identity : Inode} {lock : LockId} {read replaced : Bytes} {message : String}
      (hphase : s.phases c = .validated identity lock) (hfile : s.file name = some read)
      (hedit : edit input read = (replaced, .ok message)) :
      Edits s c fresh name input
        (s.setPhase c (.edited identity lock read replaced message))
  | enter {identity : Inode} {lock : LockId} {read replaced : Bytes} {message : String}
      (hphase : s.phases c = .edited identity lock read replaced message)
      (hfree : s.registryGuard = none) :
      Edits s c fresh name input
        ({ s with registryGuard := some c }.setPhase c
          (.publishing identity lock read replaced message))
  | rename {identity : Inode} {lock : LockId} {read replaced : Bytes} {message : String}
      (hphase : s.phases c = .publishing identity lock read replaced message)
      (hfresh : fresh ∉ s.dir.values) :
      Edits s c fresh name input
        ((s.replace name fresh ⟨c, some read, replaced⟩).setPhase c (.renamed lock message))
  | withdraw {lock : LockId} {message : String} (hphase : s.phases c = .renamed lock message)
      (hdir : s.dir.get? name = none) :
      Edits s c fresh name input
        ({ s with registryGuard := none }.setPhase c (.leaving lock (some missing)))
  | publish {current : Inode} {lock : LockId} {message : String}
      (hphase : s.phases c = .renamed lock message) (hdir : s.dir.get? name = some current) :
      Edits s c fresh name input
        ({ s with
          registry := Function.update s.registry current (some lock)
          registryGuard := none }.setPhase c (.leaving lock (some (.ok message))))
  | unlock {lock : LockId} {next : Option Report} (hphase : s.phases c = .leaving lock next) :
      Edits s c fresh name input
        ({ s with guards := Function.update s.guards lock none }.setPhase c
          (.unlocked lock next))
  | release {lock : LockId} {next : Option Report} (hphase : s.phases c = .unlocked lock next)
      (hfree : s.registryGuard = none) :
      Edits s c fresh name input ((s.release c).setPhase c (next.elim .ready .finished))

theorem stepEdit_cases {s t : State} {l : Label} {name : String} {input : Json}
    (h : stepEdit s l name input = some t) : Edits s l.call l.fresh name input t := by
  unfold stepEdit at h
  cases hphase : s.phases l.call with
  | ready =>
    simp only [hphase] at h
    cases hdir : s.dir.get? name with
    | none =>
      simp only [hdir, Option.some.injEq] at h
      exact h ▸ .absent hphase hdir
    | some identity =>
      simp only [hdir, Option.some.injEq] at h
      exact h ▸ .identify hphase hdir
  | identified identity =>
    simp only [hphase, Option.ite_none_left_eq_some, Option.not_isSome_iff_eq_none,
      Option.some.injEq] at h
    exact h.2 ▸ .acquire hphase h.1
  | leased identity lock =>
    simp only [hphase, Option.ite_none_left_eq_some, Option.not_isSome_iff_eq_none,
      Option.some.injEq] at h
    exact h.2 ▸ .lock hphase h.1
  | locked identity lock =>
    simp only [hphase] at h
    cases hdir : s.dir.get? name with
    | none =>
      simp only [hdir, Option.some.injEq] at h
      exact h ▸ .vanish hphase hdir
    | some current =>
      by_cases hsame : current = identity
      · subst hsame
        simp only [hdir, ne_eq, not_true_eq_false, if_false, Option.some.injEq] at h
        exact h ▸ .validate hphase hdir
      · simp only [hdir, ne_eq, hsame, not_false_eq_true, if_true, Option.some.injEq] at h
        exact h ▸ .stale hphase hdir hsame
  | validated identity lock =>
    simp only [hphase] at h
    cases hfile : s.file name with
    | none =>
      simp only [hfile, Option.some.injEq] at h
      exact h ▸ .lose hphase hfile
    | some read =>
      cases hedit : edit input read with | mk replaced report =>
      simp only [hfile, hedit] at h
      cases report with
      | error error =>
        simp only [Option.some.injEq] at h
        exact h ▸ .refuse hphase hfile hedit
      | ok message =>
        simp only [Option.some.injEq] at h
        exact h ▸ .read hphase hfile hedit
  | edited identity lock read replaced message =>
    simp only [hphase, Option.ite_none_left_eq_some, Option.not_isSome_iff_eq_none,
      Option.some.injEq] at h
    exact h.2 ▸ .enter hphase h.1
  | publishing identity lock read replaced message =>
    simp only [hphase, Option.ite_none_left_eq_some, Option.some.injEq] at h
    exact h.2 ▸ .rename hphase h.1
  | renamed lock message =>
    simp only [hphase] at h
    cases hdir : s.dir.get? name with
    | none =>
      simp only [hdir, Option.some.injEq] at h
      exact h ▸ .withdraw hphase hdir
    | some current =>
      simp only [hdir, Option.some.injEq] at h
      exact h ▸ .publish hphase hdir
  | leaving lock next =>
    simp only [hphase, Option.some.injEq] at h
    exact h ▸ .unlock hphase
  | unlocked lock next =>
    simp only [hphase, Option.ite_none_left_eq_some, Option.not_isSome_iff_eq_none,
      Option.some.injEq] at h
    have hstep : Edits s l.call l.fresh name input _ := .release hphase h.1
    cases next with
    | none => exact h.2 ▸ hstep
    | some report => exact h.2 ▸ hstep
  | finished report => simp only [hphase, reduceCtorEq] at h

/-- A step is a move of an edit or a whole write. -/
theorem step_cases {cfg : Config} {s t : State} {l : Label} (h : step cfg s l = some t) :
    (∃ name input, cfg.request l.call = .edit name input ∧
      Edits s l.call l.fresh name input t) ∨
    (∃ name content, cfg.request l.call = .write name content ∧ s.phases l.call = .ready ∧
      l.fresh ∉ s.dir.values ∧
      t = (s.replace name l.fresh ⟨l.call, none, content⟩).setPhase l.call
        (.finished (written content))) := by
  unfold step at h
  cases hrequest : cfg.request l.call with
  | edit name input =>
    rw [hrequest] at h
    exact .inl ⟨name, input, rfl, stepEdit_cases h⟩
  | write name content =>
    simp only [hrequest, stepWrite] at h
    cases hphase : s.phases l.call <;>
      simp only [hphase, Option.ite_none_left_eq_some, Option.some.injEq, reduceCtorEq] at h
    exact .inr ⟨name, content, rfl, rfl, h.1, h.2.symm⟩

end Kyora.Files
