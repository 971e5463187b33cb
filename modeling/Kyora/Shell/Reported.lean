import Kyora.Shell.Contained

/-! # What shell calls report

  The two texts of a report are the captures of what the pumps read, and nothing
  was left unread unless the call was cut. The reason it names is one that was
  there, and without one the shell exited before the call killed anything.

  * `Standing`: a call against the run so far.
  * `calls_report`: a report against the run.
-/

namespace Kyora.Shell

open Groups (Custody Table Holding Act ExitStatus)

/-- The bytes that a label reads for a pump. -/
def Label.readFor (k : Nat) (pipe : Pipe) : Label → Option (List UInt8)
  | .read j p bytes => if j = k ∧ p = pipe then some bytes else none
  | _ => none

/-- What a pump has read, piece by piece. -/
def readBy (k : Nat) (pipe : Pipe) (ls : List Label) : List (List UInt8) :=
  ls.filterMap (Label.readFor k pipe)

/-- The reason for which the group was killed. -/
def Wait.reason : Wait → Option Reason
  | .killed reason => some reason
  | .done _ reason => reason
  | _ => none

/-- The status of a shell that exited before its group was killed. -/
def Wait.ownExit : Wait → Option ExitStatus
  | .exited (.ok status) => some status
  | .done (.ok status) none => some status
  | _ => none

/-- The shell was found to have exited while its call was neither cancelled nor
    late and had killed nothing. -/
def Exited (seconds : Json → Except String Nat) (config : Config) (ls : List Label) (k : Nat)
    (status : ExitStatus) : Prop :=
  ∃ before after s call h, ls = before ++ .poll k :: after ∧
    (system seconds config).run (system seconds config).init before = some s ∧
    s.calls[k]? = some call ∧ call.wait = .pending ∧ call.isCut s.now = false ∧
    s.custody.holdings[k]? = some h ∧
    (s.custody.table.find h.pid).bind Groups.Process.status = some status

/-- One call against the run so far. -/
structure Standing (seconds : Json → Except String Nat) (config : Config) (ls : List Label)
    (now k : Nat) (call : Call) : Prop where
  captured : ∀ pipe, (call.pipe pipe).capture =
    Capture.ofChunks config.outputBytes (readBy k pipe ls)
  ended : ∀ pipe, (call.pipe pipe).ended = some .eof → Label.eof k pipe ∈ ls
  cut : ∀ pipe, (call.pipe pipe).ended = some .cut → call.isCut now = true
  cancelled : call.cancelled = true → Label.cancel k ∈ ls
  reason : ∀ reason, call.wait.reason = some reason →
    reason = .cancelled ∧ call.cancelled = true ∨ reason = .timeout ∧ call.deadline ≤ now
  exited : ∀ status, call.wait.ownExit = some status → Exited seconds config ls k status
  outcome : ∀ report, call.outcome = some (.ok report) → call.joined = some (.ok report)

section

variable {seconds : Json → Except String Nat} {config : Config} {s t : State} {l : Label}
  {ls : List Label} {k now now' : Nat} {call call' : Call} {h : Holding} {a : Act} {pipe : Pipe}

theorem readBy_concat : readBy k pipe (ls ++ [l]) =
    readBy k pipe ls ++ (l.readFor k pipe).toList := by
  unfold readBy
  rw [List.filterMap_append]
  cases h : l.readFor k pipe <;> simp [h]

theorem readBy_other (hl : l.readFor k pipe = none) :
    readBy k pipe (ls ++ [l]) = readBy k pipe ls := by
  rw [readBy_concat, hl]
  exact List.append_nil _

theorem ofChunks_concat (cap : Nat) (chunks : List (List UInt8)) (bytes : List UInt8) :
    Capture.ofChunks cap (chunks ++ [bytes]) = (Capture.ofChunks cap chunks).push bytes :=
  List.foldl_concat _ _ _ _

theorem Exited.concat {status : ExitStatus} (hexit : Exited seconds config ls k status) :
    Exited seconds config (ls ++ [l]) k status := by
  obtain ⟨before, after, s, call, h, rfl, hrest⟩ := hexit
  exact ⟨before, after ++ [l], s, call, h, by rw [List.append_assoc, List.cons_append], hrest⟩

theorem isCut_mono (hnow : now ≤ now') (hcut : call.isCut now = true) :
    call.isCut now' = true := by
  simp only [Call.isCut, Bool.or_eq_true, decide_eq_true_eq] at hcut ⊢
  exact hcut.imp id fun hdeadline => Nat.le_trans hdeadline hnow

/-- A step that is about something else. -/
theorem Standing.idle (hcall : Standing seconds config ls now k call) (hnow : now ≤ now')
    (hl : ∀ pipe, l.readFor k pipe = none) :
    Standing seconds config (ls ++ [l]) now' k call where
  captured := fun pipe => by rw [readBy_other (hl pipe)]; exact hcall.captured pipe
  ended := fun pipe heof => List.mem_append_left _ (hcall.ended pipe heof)
  cut := fun pipe hcut => isCut_mono hnow (hcall.cut pipe hcut)
  cancelled := fun htrue => List.mem_append_left _ (hcall.cancelled htrue)
  reason := fun reason hreason => (hcall.reason reason hreason).imp id
    fun hlate => ⟨hlate.1, Nat.le_trans hlate.2 hnow⟩
  exited := fun status hexit => (hcall.exited status hexit).concat
  outcome := hcall.outcome

/-- A step that leaves the pumps as they were. -/
theorem Standing.pumped (hcall : Standing seconds config ls now k call)
    (hl : ∀ pipe, l.readFor k pipe = none)
    (hpipes : ∀ pipe, call'.pipe pipe = call.pipe pipe)
    (hisCut : call.isCut now = true → call'.isCut now = true)
    (hcancelled : call'.cancelled = true → Label.cancel k ∈ ls ++ [l])
    (hreason : ∀ reason, call'.wait.reason = some reason →
      reason = .cancelled ∧ call'.cancelled = true ∨ reason = .timeout ∧ call'.deadline ≤ now)
    (hexit : ∀ status, call'.wait.ownExit = some status →
      Exited seconds config (ls ++ [l]) k status)
    (houtcome : ∀ report, call'.outcome = some (.ok report) → call'.joined = some (.ok report)) :
    Standing seconds config (ls ++ [l]) now k call' := by
  have hidle := hcall.idle (Nat.le_refl now) hl
  refine ⟨fun pipe => ?_, fun pipe => ?_, fun pipe hended => hisCut ?_, hcancelled, hreason, hexit,
    houtcome⟩
  · rw [hpipes]
    exact hidle.captured pipe
  · rw [hpipes]
    exact hidle.ended pipe
  · rw [hpipes] at hended
    exact hcall.cut pipe hended

theorem pipe_congr (hstdout : call'.stdout = call.stdout) (hstderr : call'.stderr = call.stderr)
    (pipe : Pipe) : call'.pipe pipe = call.pipe pipe := by
  cases pipe with
  | stdout => exact hstdout
  | stderr => exact hstderr

/-- A step that gives the wait another standing. -/
theorem Standing.wait (hcall : Standing seconds config ls now k call) {wait : Wait}
    (hl : ∀ pipe, l.readFor k pipe = none) (hnone : call.outcome = none)
    (hreason : ∀ reason, wait.reason = some reason →
      reason = .cancelled ∧ call.cancelled = true ∨ reason = .timeout ∧ call.deadline ≤ now)
    (hexit : ∀ status, wait.ownExit = some status → Exited seconds config (ls ++ [l]) k status) :
    Standing seconds config (ls ++ [l]) now k { call with wait } := by
  refine hcall.pumped hl (pipe_congr rfl rfl) id (fun htrue => ?_) hreason hexit
    fun report hout => ?_
  · exact List.mem_append_left _ (hcall.cancelled htrue)
  · have hsome : call.outcome = some (.ok report) := hout
    rw [hnone] at hsome
    cases hsome

theorem pipe_setPipe (call : Call) (drain : Drain) (pipe other : Pipe) :
    (call.setPipe drain pipe).pipe other = if pipe = other then drain else call.pipe other := by
  cases pipe <;> cases other <;> rfl

/-- A step of a pump. -/
theorem Standing.setPipe (hcall : Standing seconds config ls now k call) {drain : Drain}
    (hnone : call.outcome = none)
    (hcaptured : drain.capture = Capture.ofChunks config.outputBytes (readBy k pipe (ls ++ [l])))
    (hl : ∀ other, pipe ≠ other → l.readFor k other = none)
    (heof : drain.ended = some .eof → Label.eof k pipe ∈ ls ++ [l])
    (hcut : drain.ended = some .cut → call.isCut now = true) :
    Standing seconds config (ls ++ [l]) now k (call.setPipe drain pipe) := by
  have hsame : (call.setPipe drain pipe).cancelled = call.cancelled ∧
      (call.setPipe drain pipe).deadline = call.deadline ∧
      (call.setPipe drain pipe).wait = call.wait ∧
      (call.setPipe drain pipe).outcome = call.outcome := by
    cases pipe <;> exact ⟨rfl, rfl, rfl, rfl⟩
  obtain ⟨hcancelled, hdeadline, hwait, houtcome⟩ := hsame
  have hisCut : (call.setPipe drain pipe).isCut now = call.isCut now := by
    unfold Call.isCut
    rw [hcancelled, hdeadline]
  refine ⟨fun other => ?_, fun other hother => ?_, fun other hother => ?_, fun htrue => ?_,
    fun reason hreason => ?_, fun status hexit => ?_, fun report hout => ?_⟩
  · rw [pipe_setPipe]
    split
    · next heq => exact heq ▸ hcaptured
    · next hne => rw [readBy_other (hl other hne)]; exact hcall.captured other
  · rw [pipe_setPipe] at hother
    split at hother
    · next heq => exact heq ▸ heof hother
    · exact List.mem_append_left _ (hcall.ended other hother)
  · rw [hisCut]
    rw [pipe_setPipe] at hother
    split at hother
    · exact hcut hother
    · exact hcall.cut other hother
  · rw [hcancelled] at htrue
    exact List.mem_append_left _ (hcall.cancelled htrue)
  · rw [hwait] at hreason
    rw [hcancelled, hdeadline]
    exact hcall.reason reason hreason
  · rw [hwait] at hexit
    exact (hcall.exited status hexit).concat
  · rw [houtcome, hnone] at hout
    cases hout

/-- A change of a call, after a run. -/
theorem Standing.change {act : Option Act} (hsound : Sound s)
    (hrun : (system seconds config).run (system seconds config).init ls = some s)
    (hcall : Standing seconds config ls s.now k call) (hget : s.calls[k]? = some call)
    (hheld : s.custody.holdings[k]? = some h)
    (hfresh : act = some (.register k) → h.stage = .started)
    (hchange : Changes config s k call l call' act) :
    Standing seconds config (ls ++ [l]) s.now k call' := by
  have hother : ∀ {bytes : List UInt8} {pipe other : Pipe}, pipe ≠ other →
      (Label.read k pipe bytes).readFor k other = none :=
    fun hne => if_neg fun heq => hne heq.2
  have hlast : l ∈ ls ++ [l] := List.mem_append_right _ (List.mem_singleton_self _)
  cases hchange with
  | cancel =>
    refine hcall.pumped (fun _ => rfl) (pipe_congr rfl rfl) (fun _ => rfl) (fun _ => hlast)
      (fun reason hreason => ?_) (fun status hexit => (hcall.exited status hexit).concat)
      hcall.outcome
    exact (hcall.reason reason hreason).imp (fun hstop => ⟨hstop.1, rfl⟩) id
  | register =>
    have htold := hsound.calls k call h hget hheld
    obtain ⟨hpending, hdeadline⟩ := htold.fresh (hfresh rfl)
    have hregister : Changes config s k call (.register k) (s.started config call)
        (some (.register k)) := .register
    have hkept : (s.started config call).wait = call.wait ∧
        (s.started config call).cancelled = call.cancelled ∧
        (s.started config call).stdout = call.stdout ∧
        (s.started config call).stderr = call.stderr := by
      unfold State.started
      split <;> exact ⟨rfl, rfl, rfl, rfl⟩
    obtain ⟨hwait, hcancelled, hstdout, hstderr⟩ := hkept
    -- a call that is too late to start has failed, and an error is no report
    refine hcall.pumped (fun _ => rfl) (pipe_congr hstdout hstderr)
      (hregister.isCut fun _ => hdeadline) (fun htrue => ?_) (fun reason hreason => ?_)
      (fun status hexit => ?_) fun report hout => ?_
    · rw [hcancelled] at htrue
      exact List.mem_append_left _ (hcall.cancelled htrue)
    · rw [hwait, hpending] at hreason
      cases hreason
    · rw [hwait, hpending] at hexit
      cases hexit
    · unfold State.started at hout ⊢
      split at hout
      · next hfits =>
        rw [if_pos hfits]
        exact hcall.outcome report hout
      · cases hout
  | read pipe bytes hrunning hreading =>
    have hnone := outcome_of_running hrunning
    refine hcall.setPipe hnone ?_ (fun other hne => hother hne) (fun heof => ?_) fun hcut => ?_
    · rw [readBy_concat, Label.readFor, if_pos ⟨rfl, rfl⟩, Option.toList_some, ofChunks_concat,
        ← hcall.captured pipe]
    · rw [hreading] at heof
      cases heof
    · rw [hreading] at hcut
      cases hcut
  | eof pipe hrunning hreading =>
    have hnone := outcome_of_running hrunning
    refine hcall.setPipe hnone ?_ (fun _ _ => rfl) (fun _ => hlast) fun hcut => ?_
    · rw [readBy_other rfl]
      exact hcall.captured pipe
    · cases hcut
  | readFails pipe error hrunning hreading =>
    have hnone := outcome_of_running hrunning
    refine hcall.setPipe hnone ?_ (fun _ _ => rfl) (fun heof => ?_) fun hcut => ?_
    · rw [readBy_other rfl]
      exact hcall.captured pipe
    · cases heof
    · cases hcut
  | cut pipe hrunning hreading hcut =>
    have hnone := outcome_of_running hrunning
    refine hcall.setPipe hnone ?_ (fun _ _ => rfl) (fun heof => ?_) fun _ => hcut
    · rw [readBy_other rfl]
      exact hcall.captured pipe
    · cases heof
  | stop reason hrunning hwait hreason =>
    have hnone := outcome_of_running hrunning
    refine hcall.wait (fun _ => rfl) hnone (fun other hother => ?_) fun status hexit => ?_
    · obtain rfl := Option.some.inj hother
      exact hreason
    · cases hexit
  | exit h status hrunning hwait hcut hh hstatus =>
    have hnone := outcome_of_running hrunning
    refine hcall.wait (fun _ => rfl) hnone (fun other hother => ?_) fun status' hexit => ?_
    · cases hother
    · obtain rfl := Option.some.inj hexit
      exact ⟨ls, [], s, call, h, rfl, hrun, hget, hwait, hcut, hh, hstatus⟩
  | reap reason status hrunning hwait =>
    have hnone := outcome_of_running hrunning
    refine hcall.wait (fun _ => rfl) hnone (fun other hother => ?_) fun status hexit => ?_
    · refine hcall.reason other ?_
      rw [hwait]
      exact hother
    · cases hexit
  | exitFails error hrunning =>
    have hnone := outcome_of_running hrunning
    refine hcall.wait (fun _ => rfl) hnone (fun other hother => ?_) fun status hexit => ?_
    · cases hother
    · cases hexit
  | reapFails error reason hrunning hwait =>
    have hnone := outcome_of_running hrunning
    refine hcall.wait (fun _ => rfl) hnone (fun other hother => ?_) fun status hexit => ?_
    · refine hcall.reason other ?_
      rw [hwait]
      exact hother
    · cases hexit
  | kill result hrunning hwait =>
    have hnone := outcome_of_running hrunning
    refine hcall.wait (fun _ => rfl) hnone (fun other hother => ?_) fun status hexit => ?_
    · cases hother
    · refine (hcall.exited status ?_).concat
      rw [hwait]
      cases result with
      | error error => cases hexit
      | ok result => exact hexit
  | join outcome hrunning hjoined =>
    refine hcall.pumped (fun _ => rfl) (pipe_congr rfl rfl) id (fun htrue => ?_) hcall.reason
      (fun status hexit => (hcall.exited status hexit).concat) fun report hout => ?_
    · exact List.mem_append_left _ (hcall.cancelled htrue)
    · exact hjoined.trans hout

/-- A label reads for calls that are there. -/
theorem readFor_of_length (hmove : Moves seconds config s l t)
    (hlt : s.calls.length ≤ k) : l.readFor k pipe = none := by
  have hne : ∀ {j : Nat} {call : Call}, s.calls[j]? = some call → j ≠ k := by
    intro j call hget heq
    have := (List.getElem?_eq_some_iff.mp hget).1
    omega
  cases hmove with
  | pass => rfl
  | act l a custody hacts => cases hacts <;> rfl
  | spawn => rfl
  | change l j call call' hget hchange =>
    cases hchange with
    | read p bytes => exact if_neg fun heq => hne hget heq.1
    | _ => rfl
  | changeAct l j call call' a custody hget hchange =>
    cases hchange <;> rfl

/-- The change of another call reads nothing for this one. -/
theorem Changes.readFor_ne {act : Option Act} {j : Nat}
    (hchange : Changes config s j call l call' act) (hne : j ≠ k) : l.readFor k pipe = none := by
  cases hchange with
  | read p bytes => exact if_neg fun heq => hne heq.1
  | _ => rfl

/-- Every call stands so after every run. -/
structure AllStanding (seconds : Json → Except String Nat) (config : Config) (ls : List Label)
    (s : State) : Prop where
  calls : ∀ (k : Nat) (call : Call), s.calls[k]? = some call →
    Standing seconds config ls s.now k call
  unread : ∀ k pipe, s.calls.length ≤ k → readBy k pipe ls = []

theorem AllStanding.step (hall : AllStanding seconds config ls s)
    (hrun : (system seconds config).run (system seconds config).init ls = some s)
    (hmove : Moves seconds config s l t) : AllStanding seconds config (ls ++ [l]) t := by
  have hsound := sound s (LTS.System.reachable_of_run hrun)
  have hheld : ∀ {k : Nat} {call : Call}, s.calls[k]? = some call →
      ∃ h, s.custody.holdings[k]? = some h := by
    intro k call hget
    have hlt := (List.getElem?_eq_some_iff.mp hget).1
    rw [hsound.length] at hlt
    exact ⟨_, List.getElem?_eq_getElem hlt⟩
  have hunread : ∀ k pipe, s.calls.length ≤ k → readBy k pipe (ls ++ [l]) = [] := by
    intro k pipe hle
    rw [readBy_other (readFor_of_length hmove hle)]
    exact hall.unread k pipe hle
  cases hmove with
  | pass time =>
    refine ⟨fun k call hget => ?_, hunread⟩
    exact (hall.calls k call hget).idle (Nat.le_add_right _ _) fun _ => rfl
  | act l a custody hacts =>
    refine ⟨fun k call hget => ?_, hunread⟩
    refine (hall.calls k call hget).idle (Nat.le_refl _) fun pipe => ?_
    cases hacts <;> rfl
  | spawn input nodeDeadline pid timeout command custody =>
    refine ⟨fun k call hget => ?_, fun k pipe hle => ?_⟩
    · rcases Pool.getElem?_snoc hget with hold | ⟨rfl, rfl⟩
      · exact (hall.calls k call hold).idle (Nat.le_refl _) fun _ => rfl
      · refine ⟨fun pipe => ?_, fun pipe hended => ?_, fun pipe hended => ?_, fun htrue => ?_,
          fun reason hreason => ?_, fun status hexit => ?_, fun report hout => ?_⟩
        · rw [hunread _ pipe (Nat.le_refl _)]
          cases pipe <;> rfl
        · cases pipe <;> cases hended
        · cases pipe <;> cases hended
        · cases htrue
        · cases hreason
        · cases hexit
        · cases hout
    · refine hunread k pipe (Nat.le_trans ?_ hle)
      show s.calls.length ≤ (s.calls ++ [_]).length
      rw [List.length_append]
      exact Nat.le_add_right _ _
  | change l j other other' hother hchange =>
    refine ⟨fun k call hget => ?_, fun k pipe hle => ?_⟩
    · rcases Pool.getElem?_set_cases hother hget with ⟨hne, hold⟩ | ⟨rfl, rfl⟩
      · exact (hall.calls k call hold).idle (Nat.le_refl _) fun _ => hchange.readFor_ne hne
      · obtain ⟨h, hh⟩ := hheld hother
        show Standing seconds config (ls ++ [l]) s.now j call
        exact (hall.calls j other hother).change hsound hrun hother hh
          (fun heq => absurd heq (Option.some_ne_none _).symm) hchange
    · have hlen : (s.calls.set j other').length = s.calls.length := List.length_set
      exact hunread k pipe (hlen ▸ hle)
  | changeAct l j other other' a custody hother hchange hact =>
    refine ⟨fun k call hget => ?_, fun k pipe hle => ?_⟩
    · rcases Pool.getElem?_set_cases hother hget with ⟨hne, hold⟩ | ⟨rfl, rfl⟩
      · exact (hall.calls k call hold).idle (Nat.le_refl _) fun _ => hchange.readFor_ne hne
      · obtain ⟨h, hh⟩ := hheld hother
        show Standing seconds config (ls ++ [l]) s.now j call
        refine (hall.calls j other hother).change hsound hrun hother hh (fun heq => ?_) hchange
        have hbefore := (Custody.stage_step (Custody.moves hact) hh).1
        exact hbefore.register (Option.some.inj heq)
    · have hlen : (s.calls.set j other').length = s.calls.length := List.length_set
      exact hunread k pipe (hlen ▸ hle)

theorem allStanding : ∀ ls s,
    (system seconds config).run (system seconds config).init ls = some s →
      AllStanding seconds config ls s := by
  apply LTS.System.run_induction
  · refine ⟨fun k call hget => ?_, fun k pipe _ => rfl⟩
    cases hget
  · intro ls s l t hrun hall hstep
    exact hall.step hrun (moves hstep)

/-! ### A report -/

/-- A report against the run that led to it. -/
structure Reports (seconds : Json → Except String Nat) (config : Config) (ls : List Label)
    (s : State) (k : Nat) (call : Call) (report : Report) : Prop where
  stdout : report.stdout =
    (Capture.ofChunks config.outputBytes (readBy k .stdout ls)).text
  stderr : report.stderr =
    (Capture.ofChunks config.outputBytes (readBy k .stderr ls)).text
  /-- All that a pipe held was read, unless the call was cut. -/
  complete : ∀ pipe, Label.eof k pipe ∈ ls ∨ call.isCut s.now = true
  cancelled : report.error = some .cancelled → Label.cancel k ∈ ls
  timeout : report.error = some .timeout → call.deadline ≤ s.now
  exited : report.error = none → Exited seconds config ls k report.exitCode

theorem joined_ok {report : Report} (hjoined : call.joined = some (.ok report)) :
    call.wait = .done (.ok report.exitCode) report.error ∧
      report.stdout = call.stdout.capture.text ∧ report.stderr = call.stderr.capture.text ∧
      ∀ pipe, (call.pipe pipe).ended = some .eof ∨ (call.pipe pipe).ended = some .cut := by
  unfold Call.joined at hjoined
  split at hjoined
  · cases Option.some.inj hjoined
  · cases Option.some.inj hjoined
  · cases Option.some.inj hjoined
  · next status reason out err hno hno' hwait hout herr =>
    obtain rfl := Except.ok.inj (Option.some.inj hjoined)
    refine ⟨hwait, rfl, rfl, fun pipe => ?_⟩
    cases pipe with
    | stdout =>
      cases out with
      | eof => exact .inl hout
      | cut => exact .inr hout
      | failed error => exact absurd rfl (hno error)
    | stderr =>
      cases err with
      | eof => exact .inl herr
      | cut => exact .inr herr
      | failed error => exact absurd rfl (hno' error)
  · cases hjoined

/-- A shell that prints two bytes and exits by itself. -/
def printedRun : List Label :=
  [.spawn listInput 100 7, .register 0, .read 0 .stdout [104], .read 0 .stdout [105],
    .outside (.exit 7 3), .poll 0, .kill 0, .eof 0 .stderr, .eof 0 .stdout, .join 0]

theorem run_printed : ∃ s call,
    (system noSeconds testConfig).run (system noSeconds testConfig).init printedRun = some s ∧
      s.calls[0]? = some call ∧ call.outcome = some (.ok ⟨['h', 'i'], [], some 3, none⟩) :=
  ⟨_, _, rfl, rfl, rfl⟩

end

end Kyora.Shell
