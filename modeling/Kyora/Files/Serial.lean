import Kyora.Files.Exclusion

/-! # Calls as if they ran one after the other

  The order of the renames is a serial order of the calls that succeed: the files
  have the content that they leave in this order, and each call has read, written
  and reported what it does in its place.
-/

namespace Kyora.Files

/-! ### Serial runs -/

/-- The files that the calls find. -/
def Config.file (cfg : Config) (name : String) : Option Bytes :=
  (cfg.dir.get? name).map cfg.contents

/-- The files after a call that runs alone. -/
def runAlone (cfg : Config) (files : String → Option Bytes) (c : Nat) : String → Option Bytes :=
  Function.update files (cfg.request c).name
    ((cfg.request c).apply (files (cfg.request c).name)).1

/-- The files after calls that run one after the other. -/
def serially (cfg : Config) (calls : List Nat) : String → Option Bytes :=
  calls.foldl (runAlone cfg) cfg.file

theorem serially_concat (cfg : Config) (calls : List Nat) (c : Nat) :
    serially cfg (calls ++ [c]) = runAlone cfg (serially cfg calls) c := by
  unfold serially
  rw [List.foldl_append]
  rfl

namespace Phase

/-- What a call that replaced its file reports or is going to report. -/
def succeeded? : Phase → Option String
  | .renamed _ message | .leaving _ (some (.ok message)) | .unlocked _ (some (.ok message))
  | .finished (.ok message) => some message
  | _ => none

/-- What a call has read, what it is going to write, and its message. -/
def computed? : Phase → Option (Bytes × Bytes × String)
  | .edited _ _ read replaced message | .publishing _ _ read replaced message =>
    some (read, replaced, message)
  | _ => none

end Phase

/-- The calls in the order of their renames. -/
def State.order (s : State) : List Nat := s.renames.map Rename.call

/-- A rename does what its call does after the calls before it. -/
structure InPlace (cfg : Config) (s : State) (before : List Rename) (r : Rename) : Prop where
  /-- An edit read the content that these calls leave. -/
  read : ∀ name input, cfg.request r.call = .edit name input →
    r.read = serially cfg (before.map Rename.call) name
  effect : ∃ message, (s.phases r.call).succeeded? = some message ∧
    (cfg.request r.call).apply
      (serially cfg (before.map Rename.call) (cfg.request r.call).name) =
        (some r.written, .ok message)

/-- The calls so far are a serial run in the order of their renames. -/
structure Serial (cfg : Config) (s : State) : Prop where
  files : s.file = serially cfg s.order
  each : ∀ before r after, s.renames = before ++ r :: after → InPlace cfg s before r
  /-- Every call that succeeded is in the order, once. -/
  listed : ∀ c message, (s.phases c).succeeded? = some message → c ∈ s.order
  once : s.order.Nodup

/-- A serial run, and edits on the way that still see what they have read. -/
structure History (cfg : Config) (s : State) : Prop extends Serial cfg s where
  computed : ∀ c read replaced message,
    (s.phases c).computed? = some (read, replaced, message) →
      s.file (cfg.request c).name = some read ∧
      (cfg.request c).apply (some read) = (some replaced, .ok message)
  present : ∀ c, (s.phases c).pending?.isSome = true →
    (s.dir.get? (cfg.request c).name).isSome = true

variable {cfg : Config} {s t : State} {c : Nat}

theorem History.init : History cfg (init cfg) where
  files := rfl
  each _ _ _ h := absurd (congrArg List.length h) (by simp [Files.init])
  listed _ _ h := by cases h
  once := List.nodup_nil
  computed _ _ _ _ h := by cases h
  present _ h := by cases h

/-! ### Moves -/

/-- A call in the order has succeeded. -/
theorem Serial.succeeded_of_mem (h : Serial cfg s) (hc : c ∈ s.order) :
    ∃ message, (s.phases c).succeeded? = some message := by
  obtain ⟨r, hr, rfl⟩ := List.mem_map.mp hc
  obtain ⟨before, after, hsplit⟩ := List.append_of_mem hr
  obtain ⟨message, hmessage, -⟩ := (h.each before r after hsplit).effect
  exact ⟨message, hmessage⟩

/-- A move that leaves the files alone. -/
theorem History.move (h : History cfg s) {phase : Phase}
    (hphases : t.phases = Function.update s.phases c phase) (hdir : t.dir = s.dir)
    (hcontents : t.contents = s.contents) (hrenames : t.renames = s.renames)
    (hsucceeded : phase.succeeded? = (s.phases c).succeeded?)
    (hcomputed : ∀ read replaced message, phase.computed? = some (read, replaced, message) →
      s.file (cfg.request c).name = some read ∧
      (cfg.request c).apply (some read) = (some replaced, .ok message))
    (hpending : phase.pending? = none) : History cfg t := by
  have hsame : ∀ d, (t.phases d).succeeded? = (s.phases d).succeeded? := by
    intro d
    rw [hphases]
    by_cases hd : d = c
    · rw [hd, Function.update_self, hsucceeded]
    · rw [Function.update_of_ne hd]
  have hfile : t.file = s.file := by
    funext name
    unfold State.file
    rw [hdir, hcontents]
  have horder : t.order = s.order := by
    unfold State.order
    rw [hrenames]
  refine ⟨⟨?_, ?_, ?_, ?_⟩, ?_, ?_⟩
  · rw [hfile, horder]
    exact h.files
  · intro before r after hsplit
    have hr := h.each before r after (hrenames ▸ hsplit)
    refine ⟨hr.read, ?_⟩
    rw [hsame]
    exact hr.effect
  · intro d message hd
    rw [hsame] at hd
    rw [horder]
    exact h.listed d message hd
  · rw [horder]
    exact h.once
  · intro d read replaced message hd
    rw [hphases] at hd
    rw [hfile]
    by_cases hdc : d = c
    · subst hdc
      rw [Function.update_self] at hd
      exact hcomputed read replaced message hd
    · rw [Function.update_of_ne hdc] at hd
      exact h.computed d read replaced message hd
  · intro d hd
    rw [hphases] at hd
    rw [hdir]
    by_cases hdc : d = c
    · rw [hdc, Function.update_self, hpending] at hd
      cases hd
    · rw [Function.update_of_ne hdc] at hd
      exact h.present d hd

/-- A rename puts its call at the end of the order. -/
theorem History.replaced (h : History cfg s) {phase : Phase} {fresh : Inode} {r : Rename}
    {message : String} (hphases : t.phases = Function.update s.phases r.call phase)
    (hdir : t.dir = s.dir.insert (cfg.request r.call).name fresh)
    (hcontents : t.contents = Function.update s.contents fresh r.written)
    (hrenames : t.renames = s.renames ++ [r]) (hfresh : fresh ∉ s.dir.values)
    (hbefore : (s.phases r.call).succeeded? = none)
    (hsucceeded : phase.succeeded? = some message) (hcomputed : phase.computed? = none)
    (heffect : (cfg.request r.call).apply (s.file (cfg.request r.call).name) =
      (some r.written, .ok message))
    (hread : ∀ name input, cfg.request r.call = .edit name input → r.read = s.file name)
    (hunwatched : ∀ d, d ≠ r.call → (cfg.request d).name = (cfg.request r.call).name →
      (s.phases d).critical? = none) : History cfg t := by
  have hfile : t.file = Function.update s.file (cfg.request r.call).name (some r.written) := by
    funext name
    unfold State.file
    rw [hdir, hcontents, SortedMap.get?_insert]
    by_cases hname : name = (cfg.request r.call).name
    · rw [if_pos hname, hname, Function.update_self, Option.map_some, Function.update_self]
    · rw [if_neg hname, Function.update_of_ne hname]
      cases hget : s.dir.get? name with
      | none => rfl
      | some i =>
        have hi : i ≠ fresh := by
          rintro rfl
          exact hfresh (SortedMap.mem_values_iff.mpr ⟨name, hget⟩)
        rw [Option.map_some, Option.map_some, Function.update_of_ne hi]
  have horder : t.order = s.order ++ [r.call] := by
    unfold State.order
    rw [hrenames, List.map_append]
    rfl
  have hnew : r.call ∉ s.order := by
    intro hmem
    obtain ⟨message, hmessage⟩ := h.succeeded_of_mem hmem
    rw [hbefore] at hmessage
    cases hmessage
  have hother : ∀ d, d ≠ r.call → t.phases d = s.phases d := by
    intro d hd
    rw [hphases, Function.update_of_ne hd]
  have hself : t.phases r.call = phase := by rw [hphases, Function.update_self]
  refine ⟨⟨?_, ?_, ?_, ?_⟩, ?_, ?_⟩
  · rw [hfile, horder, serially_concat, ← h.files]
    unfold runAlone
    rw [heffect]
  · intro before r' after hsplit
    rw [hrenames] at hsplit
    rcases List.eq_nil_or_concat after with rfl | ⟨after, last, rfl⟩
    · obtain ⟨rfl, hr⟩ := List.append_inj' hsplit rfl
      obtain rfl := List.singleton_inj.mp hr
      refine ⟨?_, message, by rw [hself, hsucceeded], ?_⟩
      · intro name input hrequest
        rw [hread name input hrequest, h.files]
        rfl
      · rw [← heffect, h.files]
        rfl
    · have hlast : s.renames ++ [r] = (before ++ r' :: after) ++ [last] := by
        rw [hsplit]
        simp
      obtain ⟨hsplit', -⟩ := List.append_inj' hlast rfl
      have hr := h.each before r' after hsplit'
      have hne : r'.call ≠ r.call := by
        intro heq
        apply hnew
        rw [← heq]
        exact List.mem_map_of_mem (hsplit' ▸ List.mem_append.mpr (.inr List.mem_cons_self))
      refine ⟨hr.read, ?_⟩
      rw [hother _ hne]
      exact hr.effect
  · intro d message' hd
    rw [horder]
    by_cases hdc : d = r.call
    · exact List.mem_append.mpr (.inr (List.mem_singleton.mpr hdc))
    · rw [hother d hdc] at hd
      exact List.mem_append.mpr (.inl (h.listed d message' hd))
  · rw [horder]
    exact List.nodup_append.mpr ⟨h.once, List.nodup_singleton _, by
      intro a ha b hb
      rw [List.mem_singleton.mp hb]
      rintro rfl
      exact hnew ha⟩
  · intro d read replaced message' hd
    by_cases hdc : d = r.call
    · rw [hdc, hself, hcomputed] at hd
      cases hd
    · rw [hother d hdc] at hd
      have hname : (cfg.request d).name ≠ (cfg.request r.call).name := by
        intro hname
        have hnone := hunwatched d hdc hname
        cases hp : s.phases d <;> rw [hp] at hd hnone <;> cases hd <;> cases hnone
      rw [hfile, Function.update_of_ne hname]
      exact h.computed d read replaced message' hd
  · intro d hd
    rw [hdir, SortedMap.get?_insert]
    by_cases hname : (cfg.request d).name = (cfg.request r.call).name
    · rw [if_pos hname]
      rfl
    · rw [if_neg hname]
      have hdc : d ≠ r.call := fun heq => hname (heq ▸ rfl)
      rw [hother d hdc] at hd
      exact h.present d hd

/-! ### Steps -/

theorem History.edits {fresh : Inode} {name : String} {input : Json} (h : History cfg s)
    (haccounts : Accounts s) (hexclusive : Exclusive cfg s)
    (hrequest : cfg.request c = .edit name input) (hstep : Edits s c fresh name input t) :
    History cfg t := by
  have hname : (cfg.request c).name = name := by rw [hrequest]; rfl
  cases hstep with
  | absent hphase | identify hphase | lock hphase | vanish hphase | stale hphase
  | validate hphase | lose hphase | refuse hphase =>
    exact h.move rfl rfl rfl rfl (by rw [hphase]; rfl) (fun _ _ _ hnew => by cases hnew) rfl
  | @acquire identity hphase hfree =>
    obtain ⟨lock, next, heq, -⟩ := acquire_spec haccounts c identity
    rw [heq]
    exact h.move rfl rfl rfl rfl (by rw [hphase]; rfl) (fun _ _ _ hnew => by cases hnew) rfl
  | @read identity lock read replaced message hphase hfile hedit =>
    refine h.move rfl rfl rfl rfl (by rw [hphase]; rfl) ?_ rfl
    intro read' replaced' message' hnew
    cases hnew
    refine ⟨hname ▸ hfile, ?_⟩
    rw [hrequest]
    show (some (edit input read).1, (edit input read).2) = _
    rw [hedit]
  | enter hphase hfree =>
    refine h.move rfl rfl rfl rfl (by rw [hphase]; rfl) ?_ rfl
    intro read' replaced' message' hnew
    exact h.computed c read' replaced' message' (by rw [hphase]; exact hnew)
  | @rename identity lock read replaced message hphase hfresh =>
    obtain ⟨hfile, heffect⟩ := h.computed c read replaced message (by rw [hphase]; rfl)
    refine h.replaced (r := ⟨c, some read, replaced⟩) rfl (hname ▸ rfl) rfl rfl hfresh
      (by rw [hphase]; rfl) rfl rfl (hfile ▸ heffect) ?_ ?_
    · intro name' input' hrequest'
      obtain ⟨rfl, -⟩ := Request.edit.inj (hrequest.symm.trans hrequest')
      rw [← hname, hfile]
    · intro d hd hsame
      cases hcritical : (s.phases d).critical? with
      | none => rfl
      | some i =>
        have hown : (s.phases c).critical? = some identity := by rw [hphase]; rfl
        exact absurd (hexclusive.apart haccounts hcritical hown hsame) hd
  | withdraw hphase hdir =>
    have hpresent := h.present c (by rw [hphase]; rfl)
    rw [hname, hdir] at hpresent
    cases hpresent
  | publish hphase hdir =>
    exact h.move rfl rfl rfl rfl (by rw [hphase]; rfl) (fun _ _ _ hnew => by cases hnew) rfl
  | @unlock lock next hphase =>
    refine h.move rfl rfl rfl rfl ?_ (fun _ _ _ hnew => by cases hnew) rfl
    rw [hphase]
    rcases next with - | - | message <;> rfl
  | @release lock next hphase hfree =>
    refine h.move rfl rfl rfl rfl ?_ ?_ ?_
    · rw [hphase]
      rcases next with - | - | message <;> rfl
    · intro read replaced message hnew
      cases next <;> cases hnew
    · cases next <;> rfl

/-- What every step keeps that gives no number away and does not write behind an
    edit. -/
structure Invariant (cfg : Config) (s : State) : Prop where
  accounts : Accounts s
  exclusive : Exclusive cfg s
  history : History cfg s

/-- The conditions of this file on a step. -/
def Undisturbed (cfg : Config) (s : State) (l : Label) : Prop :=
  Unclaimed cfg s l ∧ Unwatched cfg s l

theorem Invariant.init : Invariant cfg (init cfg) := ⟨.init, .init, .init⟩

theorem Invariant.step {l : Label} (h : Invariant cfg s) (hok : Undisturbed cfg s l)
    (hstep : step cfg s l = some t) : Invariant cfg t := by
  refine ⟨h.accounts.step hstep, ?_, ?_⟩
  · rcases step_cases hstep with ⟨name, input, hrequest, hedits⟩ |
      ⟨name, content, hrequest, hphase, hfresh, rfl⟩
    · exact h.exclusive.edits h.accounts hrequest hok.1 hedits
    · exact h.exclusive.write hrequest hphase hfresh hok.1 hok.2
  · rcases step_cases hstep with ⟨name, input, hrequest, hedits⟩ |
      ⟨name, content, hrequest, hphase, hfresh, rfl⟩
    · exact h.history.edits h.accounts h.exclusive hrequest hedits
    · have hname : (cfg.request l.call).name = name := by rw [hrequest]; rfl
      refine h.history.replaced (r := ⟨l.call, none, content⟩) rfl (hname ▸ rfl) rfl rfl hfresh
        (by rw [hphase]; rfl) rfl rfl (by rw [hrequest]; rfl) ?_ ?_
      · intro name' input hrequest'
        rw [hrequest] at hrequest'
        cases hrequest'
      · intro d _ hd
        exact hok.2 name content hrequest d (hd.trans hname)

theorem invariant_of_reachable (h : (system cfg).ReachableBy (Undisturbed cfg) s) :
    Invariant cfg s :=
  LTS.System.invariant .init (fun _ _ _ hs hok hstep => hs.step hok hstep) s h

/-! ### Runs that meet the conditions -/

/-- The conditions on a step, as far as they are about one call. -/
def undisturbedBy (cfg : Config) (s : State) (l : Label) (c : Nat) : Bool :=
  (match renames? cfg s l.call, (s.phases c).claim? with
    | some name, some (identity, lock) =>
      (cfg.request c).name != name || identity != l.fresh || lockAfter cfg s l == some lock
    | _, _ => true) &&
  (match cfg.request l.call with
    | .write name _ => (cfg.request c).name != name || (s.phases c).critical?.isNone
    | .edit _ _ => true)

theorem undisturbed_of_each {l : Label} (h : ∀ c, undisturbedBy cfg s l c = true) :
    Undisturbed cfg s l := by
  constructor
  · intro name hname c lock hc hclaim
    have hboth := (Bool.and_eq_true_iff.mp (h c)).1
    simp only [hname, hclaim, hc, bne_self_eq_false, Bool.false_or, beq_iff_eq] at hboth
    exact hboth
  · intro name content hrequest c hc
    have hboth := (Bool.and_eq_true_iff.mp (h c)).2
    simp only [hrequest, hc, bne_self_eq_false, Bool.false_or, Option.isNone_iff_eq_none] at hboth
    exact hboth

/-- A call that has not started disturbs nothing. -/
theorem undisturbedBy_of_ready {l : Label} (h : s.phases c = .ready) :
    undisturbedBy cfg s l c = true := by
  unfold undisturbedBy
  rw [h]
  cases renames? cfg s l.call <;> cases cfg.request l.call <;> simp [Phase.claim?, Phase.critical?]

/-- A step leaves the other calls where they are. -/
theorem step_phases {l : Label} (h : step cfg s l = some t) (hc : c ≠ l.call) :
    t.phases c = s.phases c := by
  rcases step_cases h with ⟨name, input, -, hedits⟩ | ⟨name, content, -, -, -, rfl⟩
  · cases hedits with
    | @acquire identity hphase hfree =>
      unfold State.acquire
      cases (s.registry identity).filter (State.isLive s.leases) <;> exact setPhase_of_ne hc
    | _ => exact setPhase_of_ne hc
  · exact setPhase_of_ne hc

/-- A run of the calls below a bound meets the conditions, if it does for these
    calls. -/
theorem reachableBy_of_runIf {bound : Nat} {labels : List Label}
    (h : (system cfg).runIf
      (fun s l => decide (l.call < bound) && (List.range bound).all (undisturbedBy cfg s l))
      (init cfg) labels = some s) :
    (system cfg).ReachableBy (Undisturbed cfg) s := by
  have htest : ∀ (s : State) (l : Label),
      (decide (l.call < bound) && (List.range bound).all (undisturbedBy cfg s l)) = true →
      l.call < bound ∧ ((∀ c, bound ≤ c → s.phases c = .ready) → Undisturbed cfg s l) := by
    intro s l hl
    obtain ⟨hcall, hall⟩ := Bool.and_eq_true_iff.mp hl
    refine ⟨of_decide_eq_true hcall, fun hready => undisturbed_of_each fun c => ?_⟩
    by_cases hc : c < bound
    · exact List.all_eq_true.mp hall c (List.mem_range.mpr hc)
    · exact undisturbedBy_of_ready (hready c (by omega))
  have hrun := LTS.System.RunBy.init.runIf htest h
  rw [List.nil_append] at hrun
  suffices hboth : (∀ c, bound ≤ c → s.phases c = .ready) ∧
      (system cfg).ReachableBy (Undisturbed cfg) s from hboth.2
  clear h
  -- The calls from the bound on never start.
  induction hrun with
  | init => exact ⟨fun _ _ => rfl, .init⟩
  | step _ hok hstep ih =>
    obtain ⟨hready, hreach⟩ := ih
    refine ⟨?_, hreach.step (hok.2 hready) hstep⟩
    intro c hc
    have hlt := hok.1
    rw [step_phases hstep (by omega)]
    exact hready c hc

/-! ### Edits -/

/-- At most one call of a name is between its second look and its rename. -/
def Apart (cfg : Config) (s : State) : Prop :=
  ∀ c d i j, (s.phases c).critical? = some i → (s.phases d).critical? = some j →
    (cfg.request c).name = (cfg.request d).name → c = d

theorem Invariant.apart (h : Invariant cfg s) : Apart cfg s :=
  fun _ _ _ _ hc hd hname => h.exclusive.apart h.accounts hc hd hname

/-- Some steps of one call. -/
def steps (c count : Nat) (fresh : Inode) : List Label := List.replicate count ⟨c, fresh⟩

def capitalize (old new : String) : Request :=
  .edit "f" (.object [("new", .string new), ("old", .string old)])

/-- Four edits of a file with the content `abcd`, whose inode has the number 2. -/
def reused : Config where
  request
    | 0 => capitalize "a" "A"
    | 1 => capitalize "b" "B"
    | 2 => capitalize "c" "C"
    | _ => capitalize "d" "D"
  dir := SortedMap.empty.insert "f" 2
  contents _ := [97, 98, 99, 100]

theorem reused_edits (c : Nat) : ∃ name input, reused.request c = .edit name input := by
  rcases c with - | - | - | c <;> exact ⟨_, _, rfl⟩

/-- Where no new file gets a number that another call of its name has leased another
    lock for, edits are serialized: at most one of them works on a name, the files
    have the content that the edits leave in the order of their renames, and the
    registry is empty when no call is in progress. -/
theorem edits_serialized (hedits : ∀ c, ∃ name input, cfg.request c = .edit name input)
    (h : (system cfg).ReachableBy (Unclaimed cfg) s) :
    Apart cfg s ∧ Serial cfg s ∧
      ((∀ c, (s.phases c).inProgress = false) → ∀ identity, s.registry identity = none) := by
  have hinvariant : Invariant cfg s := by
    refine LTS.System.invariant .init ?_ s h
    intro s l t hs hunclaimed hstep
    refine hs.step ⟨hunclaimed, ?_⟩ hstep
    -- No call is a write.
    intro name content hrequest
    obtain ⟨name', input, hedit⟩ := hedits l.call
    rw [hedit] at hrequest
    cases hrequest
  exact ⟨hinvariant.apart, hinvariant.history.toSerial, hinvariant.accounts.registry_empty⟩

/-- Calls 0 and 1 look up the same inode. Call 1 waits for call 0 and then looks again. -/
theorem edits_serialized_waiting :
    ∃ s, (system reused).run (init reused)
        (steps 0 2 0 ++ steps 1 2 0 ++ steps 0 8 9 ++ steps 1 14 2) = some s ∧
      s.file "f" = some [65, 66, 99, 100] ∧ Apart reused s ∧ Serial reused s ∧
      ((∀ c, (s.phases c).inProgress = false) → ∀ identity, s.registry identity = none) := by
  have hrun : ∃ s, (system reused).runIf
        (fun s l => decide (l.call < 2) && (List.range 2).all (undisturbedBy reused s l))
        (init reused) (steps 0 2 0 ++ steps 1 2 0 ++ steps 0 8 9 ++ steps 1 14 2) = some s ∧
      (system reused).run (init reused)
        (steps 0 2 0 ++ steps 1 2 0 ++ steps 0 8 9 ++ steps 1 14 2) = some s ∧
      s.file "f" = some [65, 66, 99, 100] := ⟨_, rfl, rfl, rfl⟩
  obtain ⟨s, htest, hrun, hfile⟩ := hrun
  have hreach : (system reused).ReachableBy (Unclaimed reused) s :=
    LTS.System.invariant .init (fun _ _ _ hs hok hstep => hs.step hok.1 hstep) s
      (reachableBy_of_runIf htest)
  exact ⟨s, hrun, hfile, edits_serialized reused_edits hreach⟩

/-- Call 0 looks up inode 2. Call 1 replaces it by inode 9, so 2 is free. Call 2 looks
    up inode 9, then call 0 leases a new lock for 2, which call 2 does not have when
    it makes 2 the inode of the file again and publishes its own lock for it. Call 3
    leases that lock. Now the locks of call 0 and call 3 are both free, and both find
    the inode they looked up. -/
def overlap : List Label :=
  steps 0 1 0 ++ steps 1 10 9 ++ steps 2 2 0 ++ steps 0 1 0 ++ steps 2 6 2 ++ steps 3 2 0 ++
    steps 2 2 0 ++ steps 0 2 0 ++ steps 3 2 0

/-- Call 0 reads, call 3 reads and replaces the file, call 0 replaces it. -/
def lose : List Label := steps 0 1 0 ++ steps 3 6 10 ++ steps 0 5 11

/-- Two edits work on one file at a time, and the edit of call 3 is lost. -/
theorem edit_lost :
    (∀ c, ∃ name input, reused.request c = .edit name input) ∧
      (¬ ∀ s, (system reused).Reachable s → Apart reused s) ∧
      ∃ s, (system reused).Reachable s ∧
        (∀ c < 4, s.phases c = .finished (.ok "replaced 1 matches")) ∧
        s.file "f" = some [65, 66, 67, 100] ∧ ¬ Serial reused s := by
  refine ⟨reused_edits, ?_, ?_⟩
  · intro hapart
    have hrun : ∃ s, (system reused).run (init reused) overlap = some s ∧
        (s.phases 0).critical? = some 2 ∧ (s.phases 3).critical? = some 2 :=
      ⟨_, rfl, rfl, rfl⟩
    obtain ⟨s, hrun, hfirst, hsecond⟩ := hrun
    have hsame := hapart s (LTS.System.reachable_of_run hrun) 0 3 2 2 hfirst hsecond rfl
    exact absurd hsame (by decide)
  · have hrun : ∃ s, (system reused).run (init reused) (overlap ++ lose) = some s ∧
        (s.phases 0 = .finished (.ok "replaced 1 matches") ∧
          s.phases 1 = .finished (.ok "replaced 1 matches") ∧
          s.phases 2 = .finished (.ok "replaced 1 matches") ∧
          s.phases 3 = .finished (.ok "replaced 1 matches")) ∧
        s.file "f" = some [65, 66, 67, 100] ∧ s.order = [1, 2, 3, 0] :=
      ⟨_, rfl, ⟨rfl, rfl, rfl, rfl⟩, rfl, rfl⟩
    obtain ⟨s, hrun, ⟨h0, h1, h2, h3⟩, hfile, horder⟩ := hrun
    refine ⟨s, LTS.System.reachable_of_run hrun, ?_, hfile, ?_⟩
    · intro c hc
      obtain rfl | rfl | rfl | rfl : c = 0 ∨ c = 1 ∨ c = 2 ∨ c = 3 := by omega
      · exact h0
      · exact h1
      · exact h2
      · exact h3
    · intro hserial
      have hfiles := congrFun hserial.files "f"
      have hall : serially reused [1, 2, 3, 0] "f" = some [65, 66, 67, 68] := rfl
      rw [hfile, horder, hall] at hfiles
      exact absurd hfiles (by decide)

/-! ### Edits and writes -/

/-- An edit and a write of a file with the content `x`. -/
def clash : Config where
  request
    | 0 => capitalize "x" "y"
    | _ => .write "f" [122, 120]
  dir := SortedMap.empty.insert "f" 2
  contents _ := [120]

/-- Where moreover no write replaces a name while an edit of it is between its second
    look and its rename, edits and writes are serialized. Once no call is in progress,
    the calls that succeeded have an order in which they leave the same files and
    report the same, one after the other. -/
theorem calls_serialized (h : (system cfg).ReachableBy (Undisturbed cfg) s) :
    Serial cfg s ∧
      ((∀ c, (s.phases c).inProgress = false) →
        ∃ order : List Nat, order.Nodup ∧
          (∀ c, c ∈ order ↔ ∃ message, s.phases c = .finished (.ok message)) ∧
          s.file = serially cfg order ∧
          ∀ before c after, order = before ++ c :: after →
            s.phases c = .finished
              ((cfg.request c).apply (serially cfg before (cfg.request c).name)).2) := by
  have hserial := (invariant_of_reachable h).history.toSerial
  refine ⟨hserial, fun hidle => ?_⟩
  have hfinished : ∀ c message, (s.phases c).succeeded? = some message →
      s.phases c = .finished (.ok message) := by
    intro c message hmessage
    have hphase := hidle c
    cases hp : s.phases c with
    | finished report =>
      rw [hp] at hmessage
      cases report with
      | error error => cases hmessage
      | ok message' =>
        cases hmessage
        rfl
    | ready =>
      rw [hp] at hmessage
      cases hmessage
    | _ =>
      rw [hp] at hphase
      cases hphase
  refine ⟨s.order, hserial.once, ?_, hserial.files, ?_⟩
  · intro c
    constructor
    · intro hc
      obtain ⟨message, hmessage⟩ := hserial.succeeded_of_mem hc
      exact ⟨message, hfinished c message hmessage⟩
    · rintro ⟨message, hphase⟩
      exact hserial.listed c message (by rw [hphase]; rfl)
  · intro before c after hsplit
    obtain ⟨renames, rest, hrenames, rfl, hrest⟩ := List.map_eq_append_iff.mp hsplit
    obtain ⟨r, later, rfl, rfl, -⟩ := List.map_eq_cons_iff.mp hrest
    obtain ⟨message, hmessage, heffect⟩ := (hserial.each renames r later hrenames).effect
    rw [heffect]
    exact hfinished r.call message hmessage

/-- The write comes after the first look of the edit, which then looks again. -/
theorem calls_serialized_clash :
    ∃ s, (system clash).run (init clash) (steps 0 3 0 ++ steps 1 1 3 ++ steps 0 13 4) = some s ∧
      s.file "f" = some [122, 121] ∧ Serial clash s := by
  have hrun : ∃ s, (system clash).runIf
        (fun s l => decide (l.call < 2) && (List.range 2).all (undisturbedBy clash s l))
        (init clash) (steps 0 3 0 ++ steps 1 1 3 ++ steps 0 13 4) = some s ∧
      (system clash).run (init clash) (steps 0 3 0 ++ steps 1 1 3 ++ steps 0 13 4) = some s ∧
      s.file "f" = some [122, 121] := ⟨_, rfl, rfl, rfl⟩
  obtain ⟨s, htest, hrun, hfile⟩ := hrun
  exact ⟨s, hrun, hfile, (calls_serialized (reachableBy_of_runIf htest)).1⟩

/-- The write comes between the read and the rename of the edit. Both succeed, and the
    file has a content that neither order of the two calls leaves. -/
theorem write_lost :
    ∃ s, (system clash).Reachable s ∧
      s.phases 0 = .finished (.ok "replaced 1 matches") ∧
      s.phases 1 = .finished (.ok "wrote 2 bytes") ∧
      s.file "f" ≠ serially clash [0, 1] "f" ∧ s.file "f" ≠ serially clash [1, 0] "f" := by
  have hrun : ∃ s, (system clash).run (init clash)
        (steps 0 5 0 ++ steps 1 1 3 ++ steps 0 5 4) = some s ∧
      s.phases 0 = .finished (.ok "replaced 1 matches") ∧
      s.phases 1 = .finished (.ok "wrote 2 bytes") ∧ s.file "f" = some [121] :=
    ⟨_, rfl, rfl, rfl, rfl⟩
  obtain ⟨s, hrun, hedit, hwrite, hfile⟩ := hrun
  have hfirst : serially clash [0, 1] "f" = some [122, 120] := rfl
  have hsecond : serially clash [1, 0] "f" = some [122, 121] := rfl
  refine ⟨s, LTS.System.reachable_of_run hrun, hedit, hwrite, ?_, ?_⟩
  · rw [hfile, hfirst]
    decide
  · rw [hfile, hsecond]
    decide

end Kyora.Files
