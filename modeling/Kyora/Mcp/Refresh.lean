import Kyora.Framework.System
import Kyora.Mcp.Pages

/-! # Keeping a server's tools current

  A task of every server lists its tools again after each
  `notifications/tools/list_changed`. Notifications that arrive while a listing
  is under way are one permit, which the task takes when it waits again. The
  task holds the server only to store a new list, so that the server can be
  dropped at any time.

  * `Refresh.system`: the task, its notifications and the owners of the server.
  * `refresh_current`: no notification is lost.
  * `refresh_shown`: what is shown was listed whole, by one attempt.
  * `refresh_ends`: a closed server's task ends.
-/

namespace Kyora.Mcp

/-! ### The task -/

/-- What a server's listings depend on. -/
structure Settings where
  digest : String → List UInt8
  secrets : Hiding
  server : String
  config : ServerConfig
  /-- The length of a serialized tool definition. -/
  size : RemoteTool → Nat

/-- The tools and warnings made of what a listing collected. -/
def Settings.listing (settings : Settings) (listed : List RemoteTool) : Listing :=
  list settings.digest settings.secrets settings.server settings.config listed

/-- Whether a request was given up because the server is closed. -/
def Reply.isCancelled : Reply → Bool
  | .cancelled => true
  | _ => false

namespace Refresh

/-- Where the task is. -/
inductive Phase where
  /-- In the `select!` between the end of the server and a notification. -/
  | waiting
  | listing (progress : Progress)
  /-- The server is upgraded and held, and its list about to be written. -/
  | storing (listed : List RemoteTool)
  | ended

structure State where
  /-- The permit of `Notify`: a notification nobody has taken yet. -/
  permit : Bool
  closed : Bool
  /-- Whether anyone but the task holds the server. -/
  owned : Bool
  phase : Phase
  /-- The server's list. -/
  shown : Listing

inductive Label where
  /-- `notifications/tools/list_changed` arrives. -/
  | changed
  | shutdown
  /-- The last owner drops the server. -/
  | release
  /-- The task takes the notification and asks for the first page. -/
  | start
  /-- The task sees that the server is closed. -/
  | stop
  /-- The request for a page comes to its end. -/
  | reply (reply : Reply)
  /-- The task looks at the end of its listing. -/
  | finish
  /-- The task writes the list and lets go of the server. -/
  | store

/-- Whether the task holds the server. -/
def Phase.holds : Phase → Bool
  | .storing _ => true
  | _ => false

/-- The listing runs with `closed` as its cancellation, which a response that is
    there already comes before. -/
def State.step (settings : Settings) (s : State) : Label → Option State
  | .changed => some { s with permit := true }
  | .shutdown => if s.owned then some { s with closed := true } else none
  | .release =>
    -- `Drop` runs once nobody holds the server any more
    if s.owned then some { s with owned := false, closed := s.closed || !s.phase.holds } else none
  | .start =>
    match s.phase, s.permit with
    | .waiting, true => some { s with permit := false, phase := .listing .start }
    | _, _ => none
  | .stop =>
    match s.phase, s.closed with
    | .waiting, true => some { s with phase := .ended }
    | _, _ => none
  | .reply reply =>
    match s.phase with
    | .listing (.asking left collected) =>
      if reply.isCancelled && !s.closed then none
      else some { s with
        phase := .listing ((Progress.asking left collected).reply settings.size reply) }
    | _ => none
  | .finish =>
    match s.phase with
    | .listing (.done listed) =>
      some { s with phase := if s.owned then .storing listed else .ended }
    -- a failed refresh keeps the previous list
    | .listing (.failed _) => some { s with phase := .waiting }
    | _ => none
  | .store =>
    match s.phase with
    | .storing listed =>
      some { s with
        phase := .waiting
        shown := settings.listing listed
        closed := s.closed || !s.owned }
    | _ => none

/-- The task of a server that was started with this list. A notification may have
    come `early`, during the first listing. -/
def system (settings : Settings) (first : Listing) (early : Bool) : LTS.System State Label :=
  ⟨⟨early, false, true, .waiting, first⟩, State.step settings⟩

/-! ### What a step does -/

/-- The steps of the system. -/
inductive Moves (settings : Settings) (s : State) : Label → State → Prop where
  | changed : Moves settings s .changed { s with permit := true }
  | shutdown (howned : s.owned = true) : Moves settings s .shutdown { s with closed := true }
  | release (howned : s.owned = true) :
      Moves settings s .release { s with owned := false, closed := s.closed || !s.phase.holds }
  | start (hphase : s.phase = .waiting) (hpermit : s.permit = true) :
      Moves settings s .start { s with permit := false, phase := .listing .start }
  | stop (hphase : s.phase = .waiting) (hclosed : s.closed = true) :
      Moves settings s .stop { s with phase := .ended }
  | reply (left : Nat) (collected : Collected) (reply : Reply)
      (hphase : s.phase = .listing (.asking left collected))
      (hclosed : reply = .cancelled → s.closed = true) :
      Moves settings s (.reply reply)
        { s with phase := .listing ((Progress.asking left collected).reply settings.size reply) }
  | pass (message : String) (hphase : s.phase = .listing (.failed message)) :
      Moves settings s .finish { s with phase := .waiting }
  | upgrade (listed : List RemoteTool) (hphase : s.phase = .listing (.done listed))
      (howned : s.owned = true) : Moves settings s .finish { s with phase := .storing listed }
  | gone (listed : List RemoteTool) (hphase : s.phase = .listing (.done listed))
      (howned : s.owned = false) : Moves settings s .finish { s with phase := .ended }
  | store (listed : List RemoteTool) (hphase : s.phase = .storing listed) :
      Moves settings s .store
        { s with
          phase := .waiting
          shown := settings.listing listed
          closed := s.closed || !s.owned }

theorem moves {settings : Settings} {first : Listing} {early : Bool} {s t : State} {l : Label}
    (h : (system settings first early).step s l = some t) : Moves settings s l t := by
  change s.step settings l = some t at h
  cases l with
  | changed =>
    obtain rfl := Option.some.inj h
    exact .changed
  | shutdown =>
    obtain ⟨howned, hnext⟩ := Option.ite_none_right_eq_some.mp h
    obtain rfl := Option.some.inj hnext
    exact .shutdown howned
  | release =>
    obtain ⟨howned, hnext⟩ := Option.ite_none_right_eq_some.mp h
    obtain rfl := Option.some.inj hnext
    exact .release howned
  | start =>
    simp only [State.step] at h
    split at h
    next hphase hpermit =>
      obtain rfl := Option.some.inj h
      exact .start hphase hpermit
    next => cases h
  | stop =>
    simp only [State.step] at h
    split at h
    next hphase hclosed =>
      obtain rfl := Option.some.inj h
      exact .stop hphase hclosed
    next => cases h
  | reply reply =>
    simp only [State.step] at h
    split at h
    next left collected hphase =>
      obtain ⟨hgiven, hnext⟩ := Option.ite_none_left_eq_some.mp h
      obtain rfl := Option.some.inj hnext
      refine .reply left collected reply hphase fun hcancelled => ?_
      rw [hcancelled] at hgiven
      simpa [Reply.isCancelled] using hgiven
    next => cases h
  | finish =>
    simp only [State.step] at h
    split at h
    next listed hphase =>
      obtain rfl := Option.some.inj h
      by_cases howned : s.owned = true
      · rw [if_pos howned]
        exact .upgrade listed hphase howned
      · rw [if_neg howned]
        exact .gone listed hphase (Bool.eq_false_iff.mpr howned)
    next message hphase =>
      obtain rfl := Option.some.inj h
      exact .pass message hphase
    next => cases h
  | store =>
    simp only [State.step] at h
    split at h
    next listed hphase =>
      obtain rfl := Option.some.inj h
      exact .store listed hphase
    next => cases h

/-! ### A run -/

/-- A server without credentials that exposes all of its tools. -/
def plainSettings : Settings where
  digest := fun _ => []
  secrets := ⟨fun _ => false, id⟩
  server := "files"
  config := ⟨none, [], true⟩
  size := fun _ => 2

/-- A listing of two pages, notified meanwhile, and one that fails. -/
def twoAttempts : List Label :=
  [.changed, .start, .reply (.page [readTool] (some "2")), .changed,
    .reply (.page [writeTool] none), .finish, .store, .start, .reply .timedOut, .finish]

def noTools : Listing := ⟨[], []⟩

/-- The state they lead to. -/
def attempted : State :=
  ⟨false, false, true, .waiting, plainSettings.listing [readTool, writeTool]⟩

theorem run_twoAttempts :
    (system plainSettings noTools false).run (system plainSettings noTools false).init
      twoAttempts = some attempted := rfl

/-! ### Attempts -/

/-- The replies among some labels. -/
def replies (ls : List Label) : List Reply :=
  ls.filterMap fun l => match l with
    | .reply reply => some reply
    | _ => none

section

variable {settings : Settings} {first : Listing} {early : Bool} {ls before after : List Label}
  {s₀ s t : State} {l : Label}

theorem replies_reply (ls : List Label) (reply : Reply) :
    replies (ls ++ [.reply reply]) = replies ls ++ [reply] := by
  rw [replies, List.filterMap_append]
  rfl

theorem replies_concat (ls : List Label) (hl : ∀ reply, l ≠ .reply reply) :
    replies (ls ++ [l]) = replies ls := by
  rw [replies, List.filterMap_append]
  cases l with
  | reply reply => exact absurd rfl (hl reply)
  | changed => exact List.append_nil _
  | shutdown => exact List.append_nil _
  | release => exact List.append_nil _
  | start => exact List.append_nil _
  | stop => exact List.append_nil _
  | finish => exact List.append_nil _
  | store => exact List.append_nil _

/-- The last attempt of a run began in `s₀`, and these labels came `after`. -/
structure Attempt (settings : Settings) (first : Listing) (early : Bool)
    (ls before after : List Label) (s₀ : State) : Prop where
  split : ls = before ++ .start :: after
  run : (system settings first early).run (system settings first early).init before = some s₀
  last : Label.start ∉ after

theorem Attempt.snoc (h : Attempt settings first early ls before after s₀) (hl : l ≠ .start) :
    Attempt settings first early (ls ++ [l]) before (after ++ [l]) s₀ where
  split := by rw [h.split, List.append_assoc, List.cons_append]
  run := h.run
  last := by
    intro hmem
    rcases List.mem_append.mp hmem with hmem | hmem
    · exact h.last hmem
    · exact hl (List.mem_singleton.mp hmem).symm

/-- What the state has to do with the progress of the last attempt. -/
inductive Standing (settings : Settings) (s₀ s : State) : Progress → Prop where
  | listing (progress : Progress) (hphase : s.phase = .listing progress)
      (hshown : s.shown = s₀.shown) : Standing settings s₀ s progress
  | storing (listed : List RemoteTool) (hphase : s.phase = .storing listed)
      (hshown : s.shown = s₀.shown) : Standing settings s₀ s (.done listed)
  | stored (listed : List RemoteTool) (hphase : s.phase = .waiting)
      (hshown : s.shown = settings.listing listed) : Standing settings s₀ s (.done listed)
  | failed (message : String) (hphase : s.phase = .waiting)
      (hshown : s.shown = s₀.shown) : Standing settings s₀ s (.failed message)

/-- How the state of the task comes from the labels of a run. -/
inductive Account (settings : Settings) (first : Listing) (early : Bool) (ls : List Label)
    (s : State) : Prop where
  | unstarted (hstart : Label.start ∉ ls) (hphase : s.phase = .waiting) (hshown : s.shown = first)
      (hpermit : s.permit = false → Label.changed ∉ ls ∧ early = false)
  | attempt (before after : List Label) (s₀ : State)
      (hattempt : Attempt settings first early ls before after s₀)
      (hpermit : s.permit = false → Label.changed ∉ after)
      (hstanding : Standing settings s₀ s (progress settings.size (replies after)))
  | ended (hphase : s.phase = .ended)

theorem Standing.congr {progress : Progress} (h : Standing settings s₀ s progress)
    (hphase : t.phase = s.phase) (hshown : t.shown = s.shown) :
    Standing settings s₀ t progress := by
  cases h with
  | listing _ h hs => exact .listing _ (hphase.trans h) (hshown.trans hs)
  | storing listed h hs => exact .storing listed (hphase.trans h) (hshown.trans hs)
  | stored listed h hs => exact .stored listed (hphase.trans h) (hshown.trans hs)
  | failed message h hs => exact .failed message (hphase.trans h) (hshown.trans hs)

theorem not_mem_concat (h : l ∉ ls) {l' : Label} (hne : l' ≠ l) : l ∉ ls ++ [l'] := by
  intro hmem
  rcases List.mem_append.mp hmem with hmem | hmem
  · exact h hmem
  · exact hne (List.mem_singleton.mp hmem).symm

/-- Steps of the environment leave the account as it is. -/
theorem Account.idle (h : Account settings first early ls s) (hphase : t.phase = s.phase)
    (hshown : t.shown = s.shown) (hstart : l ≠ .start) (hreply : ∀ reply, l ≠ .reply reply)
    (hpermit : t.permit = false → s.permit = false ∧ l ≠ .changed) :
    Account settings first early (ls ++ [l]) t := by
  cases h with
  | unstarted hno hwait hfirst hearly =>
    refine .unstarted (not_mem_concat hno hstart) (hphase.trans hwait) (hshown.trans hfirst) ?_
    intro hnone
    obtain ⟨hs, hl⟩ := hpermit hnone
    exact ⟨not_mem_concat (hearly hs).1 hl, (hearly hs).2⟩
  | attempt before after s₀ hattempt hfresh hstanding =>
    refine .attempt before (after ++ [l]) s₀ (hattempt.snoc hstart) ?_ ?_
    · intro hnone
      obtain ⟨hs, hl⟩ := hpermit hnone
      exact not_mem_concat (hfresh hs) hl
    · rw [replies_concat after hreply]
      exact hstanding.congr hphase hshown
  | ended hend => exact .ended (hphase.trans hend)

/-- A listing task is in its last attempt. -/
theorem Account.listing (h : Account settings first early ls s) {now : Progress}
    (hphase : s.phase = .listing now) :
    ∃ before after s₀, Attempt settings first early ls before after s₀ ∧
      (s.permit = false → Label.changed ∉ after) ∧ s.shown = s₀.shown ∧
      progress settings.size (replies after) = now := by
  cases h with
  | unstarted _ hwait => cases hphase.symm.trans hwait
  | ended hend => cases hphase.symm.trans hend
  | attempt before after s₀ hattempt hfresh hstanding =>
    generalize hnow : progress settings.size (replies after) = reached at hstanding
    cases hstanding with
    | listing _ hlisting hshown =>
      have hsame := Phase.listing.inj (hlisting.symm.trans hphase)
      exact ⟨before, after, s₀, hattempt, hfresh, hshown, hnow.trans hsame⟩
    | storing _ hstoring => cases hphase.symm.trans hstoring
    | stored _ hwait => cases hphase.symm.trans hwait
    | failed _ hwait => cases hphase.symm.trans hwait

/-- So is a storing one. -/
theorem Account.storing (h : Account settings first early ls s) {listed : List RemoteTool}
    (hphase : s.phase = .storing listed) :
    ∃ before after s₀, Attempt settings first early ls before after s₀ ∧
      (s.permit = false → Label.changed ∉ after) ∧ s.shown = s₀.shown ∧
      progress settings.size (replies after) = .done listed := by
  cases h with
  | unstarted _ hwait => cases hphase.symm.trans hwait
  | ended hend => cases hphase.symm.trans hend
  | attempt before after s₀ hattempt hfresh hstanding =>
    generalize hnow : progress settings.size (replies after) = reached at hstanding
    cases hstanding with
    | listing _ hlisting => cases hphase.symm.trans hlisting
    | storing _ hstoring hshown =>
      rw [Phase.storing.inj (hstoring.symm.trans hphase)] at hnow
      exact ⟨before, after, s₀, hattempt, hfresh, hshown, hnow⟩
    | stored _ hwait => cases hphase.symm.trans hwait
    | failed _ hwait => cases hphase.symm.trans hwait

theorem account_step
    (hrun : (system settings first early).run (system settings first early).init ls = some s)
    (h : Account settings first early ls s) (hmove : Moves settings s l t) :
    Account settings first early (ls ++ [l]) t := by
  cases hmove with
  | changed =>
    refine h.idle rfl rfl Label.noConfusion (fun _ => Label.noConfusion) fun hnone => ?_
    cases hnone
  | shutdown =>
    exact h.idle rfl rfl Label.noConfusion (fun _ => Label.noConfusion)
      fun hnone => ⟨hnone, Label.noConfusion⟩
  | release =>
    exact h.idle rfl rfl Label.noConfusion (fun _ => Label.noConfusion)
      fun hnone => ⟨hnone, Label.noConfusion⟩
  | start hphase hpermit =>
    refine .attempt ls [] s ⟨rfl, hrun, List.not_mem_nil⟩ (fun _ => List.not_mem_nil) ?_
    exact .listing _ rfl rfl
  | stop hphase hclosed => exact .ended rfl
  | reply left collected reply hphase hclosed =>
    obtain ⟨before, after, s₀, hattempt, hfresh, hshown, hnow⟩ := h.listing hphase
    refine .attempt before (after ++ [.reply reply]) s₀ (hattempt.snoc Label.noConfusion)
      (fun hnone => not_mem_concat (hfresh hnone) Label.noConfusion) ?_
    rw [replies_reply, progress_concat, hnow]
    exact .listing _ rfl hshown
  | pass message hphase =>
    obtain ⟨before, after, s₀, hattempt, hfresh, hshown, hnow⟩ := h.listing hphase
    refine .attempt before (after ++ [.finish]) s₀ (hattempt.snoc Label.noConfusion)
      (fun hnone => not_mem_concat (hfresh hnone) Label.noConfusion) ?_
    rw [replies_concat after fun _ => Label.noConfusion, hnow]
    exact .failed message rfl hshown
  | upgrade listed hphase howned =>
    obtain ⟨before, after, s₀, hattempt, hfresh, hshown, hnow⟩ := h.listing hphase
    refine .attempt before (after ++ [.finish]) s₀ (hattempt.snoc Label.noConfusion)
      (fun hnone => not_mem_concat (hfresh hnone) Label.noConfusion) ?_
    rw [replies_concat after fun _ => Label.noConfusion, hnow]
    exact .storing listed rfl hshown
  | gone listed hphase howned => exact .ended rfl
  | store listed hphase =>
    obtain ⟨before, after, s₀, hattempt, hfresh, hshown, hnow⟩ := h.storing hphase
    refine .attempt before (after ++ [.store]) s₀ (hattempt.snoc Label.noConfusion)
      (fun hnone => not_mem_concat (hfresh hnone) Label.noConfusion) ?_
    rw [replies_concat after fun _ => Label.noConfusion, hnow]
    exact .stored listed rfl rfl

theorem account_run :
    ∀ ls s, (system settings first early).run (system settings first early).init ls = some s →
      Account settings first early ls s := by
  apply LTS.System.run_induction
  · exact .unstarted List.not_mem_nil rfl rfl fun hearly => ⟨List.not_mem_nil, hearly⟩
  · intro ls s l t hrun h hstep
    exact account_step hrun h (moves hstep)

/-- No notification is lost: a task that waits with no notification left has made
    an attempt that began after the last of them, and shows what it listed, or
    what was shown before if it failed. -/
theorem refresh_current
    (hrun : (system settings first early).run (system settings first early).init ls = some s)
    (hphase : s.phase = .waiting) (hpermit : s.permit = false) :
    (Label.changed ∉ ls ∧ early = false ∧ Label.start ∉ ls ∧ s.shown = first) ∨
    ∃ before after s₀, ls = before ++ .start :: after ∧ Label.changed ∉ after ∧
      Label.start ∉ after ∧
      (system settings first early).run (system settings first early).init before = some s₀ ∧
      ((∃ listed, progress settings.size (replies after) = .done listed ∧
          s.shown = settings.listing listed) ∨
        ∃ message, progress settings.size (replies after) = .failed message ∧
          s.shown = s₀.shown) := by
  cases account_run ls s hrun with
  | unstarted hstart _ hshown hearly =>
    obtain ⟨hnone, hfalse⟩ := hearly hpermit
    exact .inl ⟨hnone, hfalse, hstart, hshown⟩
  | ended hend => cases hphase.symm.trans hend
  | attempt before after s₀ hattempt hfresh hstanding =>
    refine .inr ⟨before, after, s₀, hattempt.split, hfresh hpermit, hattempt.last, hattempt.run, ?_⟩
    generalize hnow : progress settings.size (replies after) = reached at hstanding
    cases hstanding with
    | listing _ hlisting => cases hphase.symm.trans hlisting
    | storing _ hstoring => cases hphase.symm.trans hstoring
    | stored listed _ hshown => exact .inl ⟨listed, rfl, hshown⟩
    | failed message _ hshown => exact .inr ⟨message, rfl, hshown⟩

theorem refresh_current_twoAttempts : ∃ before after s₀,
    twoAttempts = before ++ .start :: after ∧ Label.changed ∉ after ∧
      (system plainSettings noTools false).run (system plainSettings noTools false).init before =
        some s₀ := by
  rcases refresh_current run_twoAttempts rfl rfl with
    ⟨-, -, hstart, -⟩ | ⟨before, after, s₀, hsplit, hchanged, -, hrun, -⟩
  · exact absurd (by simp [twoAttempts]) hstart
  · exact ⟨before, after, s₀, hsplit, hchanged, hrun⟩

/-! ### What is shown -/

/-- Where the list that a server shows comes from. -/
inductive Shown (settings : Settings) (first : Listing) (ls : List Label) : Listing → Prop where
  | first (hstore : Label.store ∉ ls) : Shown settings first ls first
  | stored (before after rest : List Label) (listed : List RemoteTool)
      (hsplit : ls = before ++ .start :: after ++ .store :: rest) (hstart : Label.start ∉ after)
      (hstore : Label.store ∉ rest)
      (hdone : progress settings.size (replies after) = .done listed) :
      Shown settings first ls (settings.listing listed)

theorem Shown.snoc {listing : Listing} (h : Shown settings first ls listing) (hl : l ≠ .store) :
    Shown settings first (ls ++ [l]) listing := by
  cases h with
  | first hstore => exact .first (not_mem_concat hstore hl)
  | stored before after rest listed hsplit hstart hstore hdone =>
    refine .stored before after (rest ++ [l]) listed ?_ hstart (not_mem_concat hstore hl) hdone
    rw [hsplit, List.append_assoc (before ++ _), List.cons_append]

/-- What a server shows is its first list or was listed whole, page after page, by
    the attempt that stored it last: a failed or unfinished one shows nothing. -/
theorem refresh_shown (settings : Settings) (first : Listing) (early : Bool) :
    ∀ ls s, (system settings first early).run (system settings first early).init ls = some s →
      Shown settings first ls s.shown := by
  apply LTS.System.run_induction
  · exact .first List.not_mem_nil
  · intro ls s l t hrun h hstep
    have hmove := moves hstep
    cases hmove with
    | store listed hphase =>
      obtain ⟨before, after, s₀, hattempt, -, -, hdone⟩ := (account_run ls s hrun).storing hphase
      refine .stored before after [] listed ?_ hattempt.last List.not_mem_nil hdone
      rw [hattempt.split]
    | changed => exact h.snoc Label.noConfusion
    | shutdown => exact h.snoc Label.noConfusion
    | release => exact h.snoc Label.noConfusion
    | start => exact h.snoc Label.noConfusion
    | stop => exact h.snoc Label.noConfusion
    | reply => exact h.snoc Label.noConfusion
    | pass => exact h.snoc Label.noConfusion
    | upgrade => exact h.snoc Label.noConfusion
    | gone => exact h.snoc Label.noConfusion

theorem refresh_shown_twoAttempts : Shown plainSettings noTools twoAttempts attempted.shown :=
  refresh_shown plainSettings noTools false twoAttempts attempted run_twoAttempts

/-! ### How much is asked -/

def Label.isChanged : Label → Bool
  | .changed => true
  | _ => false

def Label.isStart : Label → Bool
  | .start => true
  | _ => false

/-- Whether the task itself takes the step. -/
def Label.isOwn : Label → Bool
  | .changed | .shutdown | .release => false
  | _ => true

/-- The requests an attempt may still make. -/
def Phase.left : Phase → Nat
  | .listing (.asking left _) => left
  | _ => 0

/-- A request that is out is one of those that were left. -/
def Phase.Counted (phase : Phase) : Prop :=
  ∀ left collected, phase = .listing (.asking left collected) → 0 < left

theorem reply_left (size : RemoteTool → Nat) {left : Nat} (collected : Collected) (reply : Reply)
    (hleft : 0 < left) :
    (Phase.listing ((Progress.asking left collected).reply size reply)).left + 1 ≤ left ∧
      (Phase.listing ((Progress.asking left collected).reply size reply)).Counted := by
  have hagain : ∀ next : Collected, (Phase.listing (.again (left - 1) next)).left + 1 ≤ left ∧
      (Phase.listing (.again (left - 1) next)).Counted := by
    intro next
    cases hmore : left - 1 with
    | zero =>
      refine ⟨hleft, fun _ _ h => ?_⟩
      cases h
    | succ more =>
      refine ⟨by show more + 1 + 1 ≤ left; omega, fun _ _ h => ?_⟩
      cases h
      exact Nat.succ_pos more
  have hend : ∀ progress : Progress, (∀ left collected, progress ≠ .asking left collected) →
      (Phase.listing progress).left + 1 ≤ left ∧ (Phase.listing progress).Counted := by
    intro progress hno
    refine ⟨?_, fun _ _ h => absurd (Phase.listing.inj h) (hno _ _)⟩
    cases progress with
    | asking left collected => exact absurd rfl (hno left collected)
    | done listed => exact hleft
    | failed message => exact hleft
  cases reply with
  | page tools nextCursor =>
    simp only [Progress.reply, Collected.page]
    split
    · exact hend _ fun _ _ => Progress.noConfusion
    split
    · exact hend _ fun _ _ => Progress.noConfusion
    cases nextCursor with
    | none => exact hend _ fun _ _ => Progress.noConfusion
    | some next =>
      by_cases hnext : next = ""
      · simp only [hnext, ne_eq, not_true_eq_false, if_false]
        exact hend _ fun _ _ => Progress.noConfusion
      · simp only [hnext, ne_eq, not_false_eq_true, if_true]
        exact hagain _
  | unexpected => exact hend _ fun _ _ => Progress.noConfusion
  | error description => exact hend _ fun _ _ => Progress.noConfusion
  | cancelled => exact hend _ fun _ _ => Progress.noConfusion
  | timedOut => exact hend _ fun _ _ => Progress.noConfusion

/-- What a run has asked for, beside what it may still ask for. -/
structure Counts (early : Bool) (ls : List Label) (s : State) : Prop where
  starts : ls.countP Label.isStart + s.permit.toNat ≤ ls.countP Label.isChanged + early.toNat
  replies : (replies ls).length + s.phase.left ≤ maxListPages * ls.countP Label.isStart
  counted : s.phase.Counted
  left : s.phase.left ≤ maxListPages

/-- A step that takes no notification and gets no reply. -/
theorem Counts.quiet (h : Counts early ls s) (hpermit : t.permit = s.permit)
    (hphase : t.phase = s.phase ∨ t.phase.left = 0 ∧ t.phase.Counted)
    (hstart : l.isStart = false) (hreply : ∀ reply, l ≠ .reply reply) :
    Counts early (ls ++ [l]) t := by
  have hcounts : (ls ++ [l]).countP Label.isStart = ls.countP Label.isStart := by
    simp [List.countP_append, hstart]
  have hstarts := h.starts
  have hreplies := h.replies
  have hleft : t.phase.left ≤ s.phase.left := by
    rcases hphase with hphase | ⟨hphase, -⟩
    · rw [hphase]
    · omega
  constructor
  · rw [hcounts, hpermit, List.countP_append]
    omega
  · rw [hcounts, replies_concat ls hreply]
    omega
  · rcases hphase with hphase | ⟨-, hphase⟩
    · rw [hphase]
      exact h.counted
    · exact hphase
  · exact hleft.trans h.left

theorem counts_step (h : Counts early ls s) (hmove : Moves settings s l t) :
    Counts early (ls ++ [l]) t := by
  have hstarts := h.starts
  have hreplies := h.replies
  cases hmove with
  | changed =>
    refine ⟨?_, ?_, h.counted, h.left⟩
    · simp only [List.countP_append, List.countP_singleton, Label.isStart, Label.isChanged]
      have hone := Bool.toNat_le (c := s.permit)
      simp only [Bool.toNat_true, if_true, Bool.false_eq_true, if_false]
      omega
    · rw [replies_concat ls fun _ => Label.noConfusion, List.countP_append]
      exact hreplies
  | shutdown =>
    exact h.quiet rfl (.inl rfl) rfl fun _ => Label.noConfusion
  | release =>
    exact h.quiet rfl (.inl rfl) rfl fun _ => Label.noConfusion
  | start hphase hpermit =>
    rw [hpermit, Bool.toNat_true] at hstarts
    refine ⟨?_, ?_, fun left collected hasking => ?_, Nat.le_refl _⟩
    · simp only [List.countP_append, List.countP_singleton, Label.isStart, Label.isChanged,
        if_true, Bool.false_eq_true, if_false, Bool.toNat_false]
      omega
    · have hmore : (ls ++ [Label.start]).countP Label.isStart = ls.countP Label.isStart + 1 := by
        simp [List.countP_append, Label.isStart]
      have hfirst : (Phase.listing .start).left = maxListPages := rfl
      rw [replies_concat ls fun _ => Label.noConfusion, hmore, hfirst, Nat.mul_add]
      omega
    · cases hasking
      decide
  | stop hphase hclosed =>
    refine h.quiet rfl (.inr ⟨rfl, fun _ _ hasking => ?_⟩) rfl fun _ => Label.noConfusion
    cases hasking
  | reply left collected reply hphase hclosed =>
    obtain ⟨hleft, hcounted⟩ :=
      reply_left settings.size collected reply (h.counted left collected hphase)
    have hbefore := h.left
    rw [hphase, Phase.left] at hreplies hbefore
    generalize (Progress.asking left collected).reply settings.size reply = next
      at hleft hcounted ⊢
    refine ⟨?_, ?_, hcounted, ?_⟩
    · simp only [List.countP_append, List.countP_singleton, Label.isStart, Label.isChanged,
        Bool.false_eq_true, if_false]
      exact hstarts
    · have hsame : (ls ++ [Label.reply reply]).countP Label.isStart = ls.countP Label.isStart := by
        simp [List.countP_append, Label.isStart]
      rw [replies_reply, List.length_append, List.length_singleton, hsame]
      show (replies ls).length + 1 + (Phase.listing next).left ≤ _
      omega
    · show (Phase.listing next).left ≤ maxListPages
      omega
  | pass message hphase =>
    refine h.quiet rfl (.inr ⟨rfl, fun _ _ hasking => ?_⟩) rfl fun _ => Label.noConfusion
    cases hasking
  | upgrade listed hphase howned =>
    refine h.quiet rfl (.inr ⟨rfl, fun _ _ hasking => ?_⟩) rfl fun _ => Label.noConfusion
    cases hasking
  | gone listed hphase howned =>
    refine h.quiet rfl (.inr ⟨rfl, fun _ _ hasking => ?_⟩) rfl fun _ => Label.noConfusion
    cases hasking
  | store listed hphase =>
    refine h.quiet rfl (.inr ⟨rfl, fun _ _ hasking => ?_⟩) rfl fun _ => Label.noConfusion
    cases hasking

theorem counts_run (settings : Settings) (first : Listing) (early : Bool) :
    ∀ ls s, (system settings first early).run (system settings first early).init ls = some s →
      Counts early ls s := by
  apply LTS.System.run_induction
  · refine ⟨?_, Nat.le_refl _, fun _ _ hasking => ?_, Nat.zero_le _⟩
    · exact Nat.le_refl _
    · cases hasking
  · intro ls s l t _ h hstep
    exact counts_step h (moves hstep)

/-- A notification brings at most one listing and a listing at most `maxListPages`
    requests, so that a server's notifications bound what it is asked. -/
theorem refresh_bounded (settings : Settings) (first : Listing) (early : Bool) {ls : List Label}
    {s : State}
    (hrun : (system settings first early).run (system settings first early).init ls = some s) :
    ls.countP Label.isStart ≤ ls.countP Label.isChanged + early.toNat ∧
      (replies ls).length ≤ maxListPages * ls.countP Label.isStart := by
  have h := counts_run settings first early ls s hrun
  have hstarts := h.starts
  have hreplies := h.replies
  exact ⟨by omega, by omega⟩

/-! ### The end of the task -/

/-- The task's own steps that are left while no notification comes. -/
def Phase.rank : Phase → Nat
  | .waiting => 1
  | .listing (.asking left _) => left + 3
  | .listing _ => 3
  | .storing _ => 2
  | .ended => 0

def State.rank (s : State) : Nat := s.phase.rank + s.permit.toNat * (maxListPages + 4)

theorem rank_reply (size : RemoteTool → Nat) {left : Nat} (collected : Collected) (reply : Reply)
    (hleft : 0 < left) :
    (Phase.listing ((Progress.asking left collected).reply size reply)).rank + 1 ≤ left + 3 := by
  obtain ⟨hfewer, -⟩ := reply_left size collected reply hleft
  generalize (Progress.asking left collected).reply size reply = next at hfewer ⊢
  cases next with
  | asking more _ =>
    change more + 1 ≤ left at hfewer
    show more + 3 + 1 ≤ left + 3
    omega
  | done listed =>
    show 3 + 1 ≤ left + 3
    omega
  | failed message =>
    show 3 + 1 ≤ left + 3
    omega

theorem rank_step (hcounted : s.phase.Counted) (hmove : Moves settings s l t)
    (hquiet : l.isChanged = false) : t.rank + l.isOwn.toNat ≤ s.rank := by
  cases hmove with
  | changed => cases hquiet
  | shutdown => exact Nat.le_refl _
  | release => exact Nat.le_refl _
  | start hphase hpermit =>
    simp only [State.rank, hphase, hpermit]
    decide
  | stop hphase hclosed =>
    simp only [State.rank, hphase, Phase.rank, Label.isOwn, Bool.toNat_true]
    omega
  | reply left collected reply hphase hclosed =>
    have hless := rank_reply settings.size collected reply (hcounted left collected hphase)
    simp only [State.rank, hphase, Label.isOwn, Bool.toNat_true]
    show _ + 1 ≤ left + 3 + _
    omega
  | pass message hphase =>
    simp only [State.rank, hphase, Phase.rank, Label.isOwn, Bool.toNat_true]
    omega
  | upgrade listed hphase howned =>
    simp only [State.rank, hphase, Phase.rank, Label.isOwn, Bool.toNat_true]
    omega
  | gone listed hphase howned =>
    simp only [State.rank, hphase, Phase.rank, Label.isOwn, Bool.toNat_true]
    omega
  | store listed hphase =>
    simp only [State.rank, hphase, Phase.rank, Label.isOwn, Bool.toNat_true]
    omega

/-- Nobody holds the server of a waiting task without it being closed. -/
def Guarded (s : State) : Prop := s.owned = false → s.phase.holds = true ∨ s.closed = true

theorem guarded_step (h : Guarded s) (hmove : Moves settings s l t) : Guarded t := by
  cases hmove with
  | changed => exact h
  | shutdown => exact fun _ => .inr rfl
  | release =>
    intro _
    by_cases hholds : s.phase.holds = true
    · exact .inl hholds
    · rw [Bool.not_eq_true] at hholds
      exact .inr (by rw [hholds, Bool.not_false, Bool.or_true])
  | start hphase hpermit =>
    intro hgone
    have hclosed := h hgone
    rw [hphase] at hclosed
    exact .inr (hclosed.resolve_left Bool.false_ne_true)
  | stop hphase hclosed => exact fun _ => .inr hclosed
  | reply left collected reply hphase hclosed =>
    intro hgone
    have hclosed := h hgone
    rw [hphase] at hclosed
    exact .inr (hclosed.resolve_left Bool.false_ne_true)
  | pass message hphase =>
    intro hgone
    have hclosed := h hgone
    rw [hphase] at hclosed
    exact .inr (hclosed.resolve_left Bool.false_ne_true)
  | upgrade listed hphase howned => exact fun _ => .inl rfl
  | gone listed hphase howned =>
    intro hgone
    have hclosed := h hgone
    rw [hphase] at hclosed
    exact .inr (hclosed.resolve_left Bool.false_ne_true)
  | store listed hphase =>
    intro hgone
    change s.owned = false at hgone
    exact .inr (by rw [hgone, Bool.not_false, Bool.or_true])

theorem guarded_run (settings : Settings) (first : Listing) (early : Bool) :
    ∀ s, (system settings first early).Reachable s → Guarded s :=
  LTS.System.invariant (fun hgone => Bool.noConfusion hgone)
    fun _ _ _ h _ hstep => guarded_step h (moves hstep)

/-- A server that is over stays so. -/
def Over (s : State) : Prop := s.closed = true ∨ s.owned = false

theorem over_step (h : Over s) (hmove : Moves settings s l t) : Over t := by
  cases hmove with
  | changed => exact h
  | shutdown => exact .inl rfl
  | release => exact .inr rfl
  | start => exact h
  | stop => exact h
  | reply => exact h
  | pass => exact h
  | upgrade => exact h
  | gone => exact h
  | store =>
    rcases h with h | h
    · exact .inl (by rw [h, Bool.true_or])
    · exact .inr h

/-- The task of a server that is over has a step to take until it has ended. -/
theorem own_step (hover : Over s) (hguarded : Guarded s) (hphase : s.phase ≠ .ended) :
    ∃ l, l.isOwn = true ∧ (s.step settings l).isSome = true := by
  have hclosed : s.phase.holds = false → s.closed = true := by
    intro hholds
    rcases hover with hclosed | hgone
    · exact hclosed
    · refine (hguarded hgone).resolve_left ?_
      rw [hholds]
      exact Bool.false_ne_true
  cases hnow : s.phase with
  | ended => exact absurd hnow hphase
  | waiting =>
    have hstop := hclosed (by rw [hnow]; rfl)
    refine ⟨.stop, rfl, ?_⟩
    simp only [State.step, hnow, hstop, Option.isSome_some]
  | storing listed =>
    refine ⟨.store, rfl, ?_⟩
    simp only [State.step, hnow, Option.isSome_some]
  | listing progress =>
    have hgiven := hclosed (by rw [hnow]; rfl)
    cases progress with
    | asking left collected =>
      -- the request that is out is given up
      refine ⟨.reply .cancelled, rfl, ?_⟩
      simp only [State.step, hnow, hgiven, Bool.not_true, Bool.and_false, Bool.false_eq_true,
        if_false, Option.isSome_some]
    | done listed =>
      refine ⟨.finish, rfl, ?_⟩
      simp only [State.step, hnow, Option.isSome_some]
    | failed message =>
      refine ⟨.finish, rfl, ?_⟩
      simp only [State.step, hnow, Option.isSome_some]

/-- Over a run without notifications the rank pays for the task's own steps. -/
theorem rank_run {ls ls' : List Label} (hcounts : Counts early ls s)
    (hrest : (system settings first early).run s ls' = some t)
    (hquiet : ∀ l ∈ ls', l.isChanged = false) :
    t.rank + ls'.countP Label.isOwn ≤ s.rank := by
  induction ls' generalizing ls s with
  | nil =>
    rw [LTS.System.run_nil, Option.some.injEq] at hrest
    rw [hrest]
    exact Nat.le_refl _
  | cons l ls' ih =>
    obtain ⟨u, hu, hrest⟩ := (LTS.System.run_cons _).mp hrest
    have hfirst := rank_step hcounts.counted (moves hu) (hquiet l List.mem_cons_self)
    have hlater := ih (counts_step hcounts (moves hu)) hrest
      fun other hother => hquiet other (List.mem_cons_of_mem l hother)
    rw [List.countP_cons]
    cases hown : l.isOwn with
    | true =>
      rw [hown, Bool.toNat_true] at hfirst
      rw [if_pos rfl]
      omega
    | false =>
      rw [hown, Bool.toNat_false] at hfirst
      rw [if_neg Bool.false_ne_true]
      omega

/-- Once a server is shut down or dropped, its task takes no more steps than two
    listings need, however the steps of others fall, unless the server goes on
    notifying it; and it can take them until it has ended. -/
theorem refresh_ends {ls ls' : List Label}
    (hrun : (system settings first early).run (system settings first early).init ls = some s)
    (hover : s.closed = true ∨ s.owned = false)
    (hrest : (system settings first early).run s ls' = some t)
    (hquiet : ∀ l ∈ ls', l.isChanged = false) :
    ls'.countP Label.isOwn ≤ 2 * (maxListPages + 4) ∧
      (t.phase = .ended ∨
        ∃ l, l.isOwn = true ∧ ((system settings first early).step t l).isSome = true) := by
  have hcounts := counts_run settings first early ls s hrun
  constructor
  · have hrank := rank_run hcounts hrest hquiet
    have hleft := hcounts.left
    have hphase : s.phase.rank ≤ maxListPages + 4 := by
      cases hnow : s.phase with
      | waiting => decide
      | ended => decide
      | storing listed => exact (by decide : 2 ≤ maxListPages + 4)
      | listing progress =>
        rw [hnow] at hleft
        cases progress with
        | asking left collected =>
          change left ≤ maxListPages at hleft
          show left + 3 ≤ maxListPages + 4
          omega
        | done listed => exact (by decide : 3 ≤ maxListPages + 4)
        | failed message => exact (by decide : 3 ≤ maxListPages + 4)
    have hpermit : s.permit.toNat * (maxListPages + 4) ≤ 1 * (maxListPages + 4) :=
      Nat.mul_le_mul_right _ (Bool.toNat_le s.permit)
    have htotal : s.rank = s.phase.rank + s.permit.toNat * (maxListPages + 4) := rfl
    omega
  · have hs := LTS.System.reachable_of_run hrun
    have ht := guarded_run settings first early t (LTS.System.Reachable.run hs hrest)
    have hover' : Over t :=
      LTS.System.run_invariant _ (P := Over) (fun _ _ _ h hstep => over_step h (moves hstep))
        hover hrest
    by_cases hend : t.phase = .ended
    · exact .inl hend
    · exact .inr (own_step hover' ht hend)

theorem refresh_ends_shutdown : [Label.stop].countP Label.isOwn ≤ 2 * (maxListPages + 4) :=
  (@refresh_ends plainSettings noTools false ⟨false, true, true, .waiting, noTools⟩
    ⟨false, true, true, .ended, noTools⟩ [.shutdown] [.stop] rfl (.inl rfl) rfl
    (by simp [Label.isChanged])).1

end

end Refresh

end Kyora.Mcp
