import Kyora.Conversation.Basic
import Kyora.Framework.Custody
import Kyora.Shell.Capture
import Kyora.Tool.Schema

/-! # Shell calls

  A call starts a shell in a process group of its own, pumps its two pipes and
  waits for it, each until the token is cancelled or the deadline passes. The
  group is killed when the wait is over and again when the call ends or its
  future is dropped, which takes the group out of the registry that
  `cancel_processes` reads. Calls run side by side, between whatever their
  processes and others do.

  * `prepare`: the checks before anything is started.
  * `State.step`: calls from the spawn to the end of their group.
  * `Report.output`: what a call returns.
-/

namespace Kyora.Shell

open Conversation (ToolOutput)
open Groups (Custody Event ExitStatus Stage)

/-! ### Before the spawn -/

/-- Durations and instants are in nanoseconds. -/
structure Config where
  timeout : Nat
  outputBytes : Nat
  /-- The last instant that `checked_add` can come to. -/
  lastInstant : Nat

/-- The command and the timeout of a call. What a `timeout_s` comes to, as a
    floating point number of seconds, is a parameter. -/
def prepare (seconds : Json → Except String Nat) (config : Config) (input : Json)
    (cancelled : Bool) : Except ToolOutput (String × Nat) := do
  let timeout ← match input.get? "timeout_s" with
    | some value => (seconds value).mapError ToolOutput.error
    | none => .ok config.timeout
  if timeout = 0 ∨ config.outputBytes = 0 then
    .error (.error "shell bounds must be positive")
  else if cancelled then .error (.error "cancelled")
  else match input.get? "command" with
    | some (.string command) => .ok (command, timeout)
    | _ => .error (.error "missing command")

/-! ### Calls -/

/-- Why a call killed its shell. -/
inductive Reason where
  | cancelled
  | timeout
  deriving DecidableEq, Repr

def Reason.text : Reason → String
  | .cancelled => "cancelled"
  | .timeout => "timeout"

inductive Pipe where
  | stdout
  | stderr
  deriving DecidableEq, Repr

/-- How a pump ended. -/
inductive Drained where
  | eof
  /-- The token or the deadline ended it. -/
  | cut
  | failed (error : String)

/-- `drain`. -/
structure Drain where
  capture : Capture
  ended : Option Drained

/-- How far the wait for the shell is. -/
inductive Wait where
  | pending
  /-- The group was killed; the shell is awaited. -/
  | killed (reason : Reason)
  /-- The shell has exited; the group is killed in the same poll. -/
  | exited (status : Except String ExitStatus)
  | done (status : Except String ExitStatus) (reason : Option Reason)

/-- What the JSON result of a call holds. -/
structure Report where
  stdout : List Char
  stderr : List Char
  exitCode : Option Nat
  error : Option Reason
  deriving DecidableEq, Repr

structure Call where
  timeout : Nat
  /-- `cx.node.deadline`. -/
  nodeDeadline : Nat
  deadline : Nat
  cancelled : Bool
  stdout : Drain
  stderr : Drain
  wait : Wait
  /-- What `execute` returns, once it does. -/
  outcome : Option (Except String Report)

/-- The calls by the number of their group among those held. -/
structure State where
  custody : Custody
  calls : List Call
  now : Nat

inductive Label where
  | outside (e : Event)
  | pass (time : Nat)
  | cancel (k : Nat)
  /-- A shell is found and starts. -/
  | spawn (input : Json) (nodeDeadline pid : Nat)
  /-- `ProcessGroup::new`, and the deadline. -/
  | register (k : Nat)
  | read (k : Nat) (pipe : Pipe) (bytes : List UInt8)
  | eof (k : Nat) (pipe : Pipe)
  | readFails (k : Nat) (pipe : Pipe) (error : String)
  /-- A pump sees the token or the deadline. -/
  | cut (k : Nat) (pipe : Pipe)
  /-- The wait is polled. -/
  | poll (k : Nat)
  | waitFails (k : Nat) (error : String)
  /-- The kill after the shell has exited. -/
  | kill (k : Nat)
  /-- The pumps and the wait are done. -/
  | join (k : Nat)
  /-- The group of a call that returns is dropped: its kill. -/
  | close (k : Nat)
  /-- The future is dropped. -/
  | drop (k : Nat)
  /-- The group leaves the registry. -/
  | remove (k : Nat)
  /-- One group of `cancel_processes`. -/
  | cancelProcesses (group : Nat)

def drainChunkBytes : Nat := 8192

def Call.pipe (call : Call) : Pipe → Drain
  | .stdout => call.stdout
  | .stderr => call.stderr

def Call.setPipe (call : Call) (drain : Drain) : Pipe → Call
  | .stdout => { call with stdout := drain }
  | .stderr => { call with stderr := drain }

/-- The token is cancelled or the deadline has passed. -/
def Call.isCut (call : Call) (now : Nat) : Bool := call.cancelled || call.deadline ≤ now

/-- `tokio::join!` and what follows it: the first error is returned. -/
def Call.joined (call : Call) : Option (Except String Report) :=
  match call.wait, call.stdout.ended, call.stderr.ended with
  | .done (.error error) _, some _, some _ => some (.error error)
  | .done (.ok _) _, some (.failed error), some _ => some (.error error)
  | .done (.ok _) _, some _, some (.failed error) => some (.error error)
  | .done (.ok status) reason, some _, some _ =>
    some (.ok ⟨call.stdout.capture.text, call.stderr.capture.text, status, reason⟩)
  | _, _, _ => none

def Report.json (report : Report) : Json :=
  .object [
    ("error", report.error.elim .null fun reason => .string reason.text),
    ("exit_code", report.exitCode.elim .null fun code => .integer code),
    ("stderr", .string (String.ofList report.stderr)),
    ("stdout", .string (String.ofList report.stdout))]

/-- What `call` makes of what `execute` returns. -/
def output (print : Json → String) : Except String Report → ToolOutput
  | .ok report =>
    ⟨[.text (print report.json)], report.error.isSome || report.exitCode ≠ some 0, none⟩
  | .error error => .error error

/-- A result is no error exactly if the shell exited with 0 and nothing cut it. -/
theorem output_isError (print : Json → String) (outcome : Except String Report) :
    (output print outcome).isError = false ↔
      ∃ report, outcome = .ok report ∧ report.error = none ∧ report.exitCode = some 0 := by
  cases outcome with
  | error error => simp [output, ToolOutput.error]
  | ok report => simp [output]

/-! ### Steps -/

namespace State

/-- A call whose future is at an `await`. -/
def running (s : State) (k : Nat) : Option Call :=
  match s.custody.holdings[k]?, s.calls[k]? with
  | some ⟨_, .registered, _⟩, some call => if call.outcome.isNone then some call else none
  | _, _ => none

def put (s : State) (k : Nat) (call : Call) : State := { s with calls := s.calls.set k call }

/-- An act on a call's group. -/
def act (s : State) (a : Groups.Act) : Option State :=
  (s.custody.step a).map fun custody => { s with custody }

def newCall (config : Config) (timeout nodeDeadline : Nat) : Call where
  timeout := timeout
  nodeDeadline := nodeDeadline
  deadline := nodeDeadline
  cancelled := false
  stdout := ⟨.new config.outputBytes, none⟩
  stderr := ⟨.new config.outputBytes, none⟩
  wait := .pending
  outcome := none

/-- The deadline of a call that starts now. -/
def started (s : State) (config : Config) (call : Call) : Call :=
  if s.now + call.timeout ≤ config.lastInstant then
    { call with deadline := min (s.now + call.timeout) call.nodeDeadline }
  else { call with outcome := some (.error "timeout is too large") }

/-- The `select!` of the wait looks at the token, the deadline and the shell in
    this order. A killed shell is only awaited. -/
def poll (s : State) (k : Nat) (call : Call) : Option State :=
  match call.wait with
  | .pending =>
    if call.cancelled then (s.put k { call with wait := .killed .cancelled }).act (.kill k)
    else if call.deadline ≤ s.now then
      (s.put k { call with wait := .killed .timeout }).act (.kill k)
    else do
      let h ← s.custody.holdings[k]?
      let status ← (s.custody.table.find h.pid).bind Groups.Process.status
      (s.put k { call with wait := .exited (.ok status) }).act (.wait k)
  | .killed reason => do
    let h ← s.custody.holdings[k]?
    let status ← (s.custody.table.find h.pid).bind Groups.Process.status
    (s.put k { call with wait := .done (.ok status) (some reason) }).act (.wait k)
  | _ => none

def step (seconds : Json → Except String Nat) (config : Config) (s : State) :
    Label → Option State
  | .outside e => s.act (.outside e)
  | .pass time => some { s with now := s.now + time }
  | .cancel k => do
    let call ← s.calls[k]?
    some (s.put k { call with cancelled := true })
  | .spawn input nodeDeadline pid =>
    match prepare seconds config input false with
    | .ok (_, timeout) =>
      { s with calls := s.calls ++ [newCall config timeout nodeDeadline] }.act (.start pid)
    | .error _ => none
  | .register k => do
    let call ← s.calls[k]?
    (s.put k (s.started config call)).act (.register k)
  | .read k pipe bytes => do
    let call ← s.running k
    let drain := call.pipe pipe
    if drain.ended.isNone ∧ bytes ≠ [] ∧ bytes.length ≤ drainChunkBytes then
      some (s.put k (call.setPipe { drain with capture := drain.capture.push bytes } pipe))
    else none
  | .eof k pipe => do
    let call ← s.running k
    if (call.pipe pipe).ended.isNone then
      some (s.put k (call.setPipe { call.pipe pipe with ended := some .eof } pipe))
    else none
  | .readFails k pipe error => do
    let call ← s.running k
    if (call.pipe pipe).ended.isNone then
      some (s.put k (call.setPipe { call.pipe pipe with ended := some (.failed error) } pipe))
    else none
  | .cut k pipe => do
    let call ← s.running k
    if (call.pipe pipe).ended.isNone ∧ call.isCut s.now then
      some (s.put k (call.setPipe { call.pipe pipe with ended := some .cut } pipe))
    else none
  | .poll k => do
    let call ← s.running k
    s.poll k call
  | .waitFails k error => do
    let call ← s.running k
    match call.wait with
    | .pending =>
      if call.isCut s.now then none
      else some (s.put k { call with wait := .exited (.error error) })
    | .killed reason => some (s.put k { call with wait := .done (.error error) (some reason) })
    | _ => none
  | .kill k => do
    let call ← s.running k
    match call.wait with
    | .exited status => (s.put k { call with wait := .done status none }).act (.kill k)
    | _ => none
  | .join k => do
    let call ← s.running k
    let outcome ← call.joined
    some (s.put k { call with outcome := some outcome })
  | .close k => do
    let call ← s.calls[k]?
    if call.outcome.isSome then s.act (.close k) else none
  | .drop k => do
    let call ← s.running k
    match call.wait with
    | .exited _ => none
    | _ => s.act (.close k)
  | .remove k => s.act (.release k)
  | .cancelProcesses group => s.act (.strike group)

end State

def system (seconds : Json → Except String Nat) (config : Config) : LTS.System State Label where
  init := ⟨⟨Groups.Table.empty, [], []⟩, [], 0⟩
  step := State.step seconds config

/-! ### What a step does -/

/-- What a step does to one call, with the act on its group. -/
inductive Changes (config : Config) (s : State) (k : Nat) (call : Call) :
    Label → Call → Option Groups.Act → Prop where
  | cancel : Changes config s k call (.cancel k) { call with cancelled := true } none
  | register : Changes config s k call (.register k) (s.started config call) (some (.register k))
  | read (pipe : Pipe) (bytes : List UInt8) (hrunning : s.running k = some call)
      (hreading : (call.pipe pipe).ended = none) :
      Changes config s k call (.read k pipe bytes)
        (call.setPipe
          { call.pipe pipe with capture := (call.pipe pipe).capture.push bytes } pipe) none
  | eof (pipe : Pipe) (hrunning : s.running k = some call)
      (hreading : (call.pipe pipe).ended = none) :
      Changes config s k call (.eof k pipe)
        (call.setPipe { call.pipe pipe with ended := some .eof } pipe) none
  | readFails (pipe : Pipe) (error : String) (hrunning : s.running k = some call)
      (hreading : (call.pipe pipe).ended = none) :
      Changes config s k call (.readFails k pipe error)
        (call.setPipe { call.pipe pipe with ended := some (.failed error) } pipe) none
  | cut (pipe : Pipe) (hrunning : s.running k = some call)
      (hreading : (call.pipe pipe).ended = none) (hcut : call.isCut s.now = true) :
      Changes config s k call (.cut k pipe)
        (call.setPipe { call.pipe pipe with ended := some .cut } pipe) none
  | stop (reason : Reason) (hrunning : s.running k = some call) (hwait : call.wait = .pending)
      (hreason : reason = .cancelled ∧ call.cancelled = true ∨
        reason = .timeout ∧ call.deadline ≤ s.now) :
      Changes config s k call (.poll k) { call with wait := .killed reason } (some (.kill k))
  | exit (h : Groups.Holding) (status : ExitStatus) (hrunning : s.running k = some call)
      (hwait : call.wait = .pending) (hcut : call.isCut s.now = false)
      (hget : s.custody.holdings[k]? = some h)
      (hstatus : (s.custody.table.find h.pid).bind Groups.Process.status = some status) :
      Changes config s k call (.poll k) { call with wait := .exited (.ok status) } (some (.wait k))
  | reap (reason : Reason) (status : ExitStatus) (hrunning : s.running k = some call)
      (hwait : call.wait = .killed reason) :
      Changes config s k call (.poll k) { call with wait := .done (.ok status) (some reason) }
        (some (.wait k))
  | exitFails (error : String) (hrunning : s.running k = some call)
      (hwait : call.wait = .pending) (hcut : call.isCut s.now = false) :
      Changes config s k call (.waitFails k error) { call with wait := .exited (.error error) } none
  | reapFails (error : String) (reason : Reason) (hrunning : s.running k = some call)
      (hwait : call.wait = .killed reason) :
      Changes config s k call (.waitFails k error)
        { call with wait := .done (.error error) (some reason) } none
  | kill (status : Except String ExitStatus) (hrunning : s.running k = some call)
      (hwait : call.wait = .exited status) :
      Changes config s k call (.kill k) { call with wait := .done status none } (some (.kill k))
  | join (outcome : Except String Report) (hrunning : s.running k = some call)
      (hjoined : call.joined = some outcome) :
      Changes config s k call (.join k) { call with outcome := some outcome } none

/-- What a step does to the groups alone. -/
inductive Acts (s : State) : Label → Groups.Act → Prop where
  | outside (e : Event) : Acts s (.outside e) (.outside e)
  | close (k : Nat) (call : Call) (hget : s.calls[k]? = some call)
      (houtcome : call.outcome.isSome = true) : Acts s (.close k) (.close k)
  | drop (k : Nat) (call : Call) (hrunning : s.running k = some call) : Acts s (.drop k) (.close k)
  | remove (k : Nat) : Acts s (.remove k) (.release k)
  | cancelProcesses (group : Nat) : Acts s (.cancelProcesses group) (.strike group)

inductive Moves (seconds : Json → Except String Nat) (config : Config) (s : State) :
    Label → State → Prop where
  | pass (time : Nat) : Moves seconds config s (.pass time) { s with now := s.now + time }
  | act (l : Label) (a : Groups.Act) (custody : Custody) (hacts : Acts s l a)
      (hact : s.custody.step a = some custody) : Moves seconds config s l { s with custody }
  | spawn (input : Json) (nodeDeadline pid timeout : Nat) (command : String) (custody : Custody)
      (hprepare : prepare seconds config input false = .ok (command, timeout))
      (hact : s.custody.step (.start pid) = some custody) :
      Moves seconds config s (.spawn input nodeDeadline pid)
        { s with custody, calls := s.calls ++ [State.newCall config timeout nodeDeadline] }
  | change (l : Label) (k : Nat) (call call' : Call) (hget : s.calls[k]? = some call)
      (hchange : Changes config s k call l call' none) : Moves seconds config s l (s.put k call')
  | changeAct (l : Label) (k : Nat) (call call' : Call) (a : Groups.Act) (custody : Custody)
      (hget : s.calls[k]? = some call) (hchange : Changes config s k call l call' (some a))
      (hact : s.custody.step a = some custody) :
      Moves seconds config s l { s.put k call' with custody }

section

variable {seconds : Json → Except String Nat} {config : Config} {s t : State} {l : Label} {k : Nat}
  {call : Call}

theorem running_eq_some (h : s.running k = some call) :
    ∃ held, s.custody.holdings[k]? = some held ∧ held.stage = .registered ∧
      s.calls[k]? = some call ∧ call.outcome = none := by
  unfold State.running at h
  split at h
  · next pid status call' hheld hcall =>
    simp only [Option.ite_none_right_eq_some, Option.some.injEq, Option.isNone_iff_eq_none] at h
    obtain ⟨hnone, rfl⟩ := h
    exact ⟨_, hheld, rfl, hcall, hnone⟩
  · cases h

theorem calls_of_running (h : s.running k = some call) : s.calls[k]? = some call := by
  obtain ⟨-, -, -, hget, -⟩ := running_eq_some h
  exact hget

theorem outcome_of_running (h : s.running k = some call) : call.outcome = none := by
  obtain ⟨-, -, -, -, hnone⟩ := running_eq_some h
  exact hnone

theorem running_intro {held : Groups.Holding} (hheld : s.custody.holdings[k]? = some held)
    (hstage : held.stage = .registered) (hcall : s.calls[k]? = some call)
    (hnone : call.outcome = none) : s.running k = some call := by
  obtain ⟨pid, stage, status⟩ := held
  obtain rfl : stage = .registered := hstage
  unfold State.running
  rw [hheld, hcall]
  simp [hnone]

theorem act_eq_some {a : Groups.Act} (h : s.act a = some t) :
    ∃ custody, s.custody.step a = some custody ∧ t = { s with custody } := by
  obtain ⟨custody, hact, rfl⟩ := Option.map_eq_some_iff.mp h
  exact ⟨custody, hact, rfl⟩

theorem moves_poll (hrunning : s.running k = some call) (hpoll : s.poll k call = some t) :
    Moves seconds config s (.poll k) t := by
  have hget := calls_of_running hrunning
  unfold State.poll at hpoll
  split at hpoll
  · next hwait =>
    split at hpoll
    · next hcancelled =>
      obtain ⟨custody, hact, rfl⟩ := act_eq_some hpoll
      exact .changeAct _ k call _ _ custody hget
        (.stop .cancelled hrunning hwait (.inl ⟨rfl, hcancelled⟩)) hact
    · next hcancelled =>
      split at hpoll
      · next hdeadline =>
        obtain ⟨custody, hact, rfl⟩ := act_eq_some hpoll
        exact .changeAct _ k call _ _ custody hget
          (.stop .timeout hrunning hwait (.inr ⟨rfl, hdeadline⟩)) hact
      · next hdeadline =>
        obtain ⟨h, hh, hnext⟩ := Option.bind_eq_some_iff.mp hpoll
        obtain ⟨status, hstatus, hnext⟩ := Option.bind_eq_some_iff.mp hnext
        obtain ⟨custody, hact, rfl⟩ := act_eq_some hnext
        have hcut : call.isCut s.now = false := by simp [Call.isCut, hcancelled, hdeadline]
        exact .changeAct _ k call _ _ custody hget (.exit h status hrunning hwait hcut hh hstatus)
          hact
  · next reason hwait =>
    obtain ⟨h, hh, hnext⟩ := Option.bind_eq_some_iff.mp hpoll
    obtain ⟨status, hstatus, hnext⟩ := Option.bind_eq_some_iff.mp hnext
    obtain ⟨custody, hact, rfl⟩ := act_eq_some hnext
    exact .changeAct _ k call _ _ custody hget (.reap reason status hrunning hwait) hact
  · cases hpoll

theorem moves (hstep : s.step seconds config l = some t) : Moves seconds config s l t := by
  cases l with
  | outside e =>
    obtain ⟨custody, hact, rfl⟩ := act_eq_some hstep
    exact .act _ _ custody (.outside e) hact
  | pass time =>
    obtain rfl := Option.some.inj hstep
    exact .pass time
  | cancel k =>
    obtain ⟨call, hget, hnext⟩ := Option.bind_eq_some_iff.mp hstep
    obtain rfl := Option.some.inj hnext
    exact .change _ k call _ hget .cancel
  | spawn input nodeDeadline pid =>
    simp only [State.step] at hstep
    split at hstep
    · next command timeout hprepare =>
      obtain ⟨custody, hact, rfl⟩ := act_eq_some hstep
      exact .spawn input nodeDeadline pid timeout command custody hprepare hact
    · cases hstep
  | register k =>
    obtain ⟨call, hget, hnext⟩ := Option.bind_eq_some_iff.mp hstep
    obtain ⟨custody, hact, rfl⟩ := act_eq_some hnext
    exact .changeAct _ k call _ _ custody hget .register hact
  | read k pipe bytes =>
    obtain ⟨call, hrunning, hnext⟩ := Option.bind_eq_some_iff.mp hstep
    simp only [Option.ite_none_right_eq_some, Option.some.injEq, Option.isNone_iff_eq_none] at hnext
    obtain ⟨⟨hreading, -⟩, rfl⟩ := hnext
    have hget := calls_of_running hrunning
    exact .change _ k call _ hget (.read pipe bytes hrunning hreading)
  | eof k pipe =>
    obtain ⟨call, hrunning, hnext⟩ := Option.bind_eq_some_iff.mp hstep
    simp only [Option.ite_none_right_eq_some, Option.some.injEq, Option.isNone_iff_eq_none] at hnext
    obtain ⟨hreading, rfl⟩ := hnext
    have hget := calls_of_running hrunning
    exact .change _ k call _ hget (.eof pipe hrunning hreading)
  | readFails k pipe error =>
    obtain ⟨call, hrunning, hnext⟩ := Option.bind_eq_some_iff.mp hstep
    simp only [Option.ite_none_right_eq_some, Option.some.injEq, Option.isNone_iff_eq_none] at hnext
    obtain ⟨hreading, rfl⟩ := hnext
    have hget := calls_of_running hrunning
    exact .change _ k call _ hget (.readFails pipe error hrunning hreading)
  | cut k pipe =>
    obtain ⟨call, hrunning, hnext⟩ := Option.bind_eq_some_iff.mp hstep
    simp only [Option.ite_none_right_eq_some, Option.some.injEq, Option.isNone_iff_eq_none] at hnext
    obtain ⟨⟨hreading, hcut⟩, rfl⟩ := hnext
    have hget := calls_of_running hrunning
    exact .change _ k call _ hget (.cut pipe hrunning hreading hcut)
  | poll k =>
    obtain ⟨call, hrunning, hnext⟩ := Option.bind_eq_some_iff.mp hstep
    exact moves_poll hrunning hnext
  | waitFails k error =>
    obtain ⟨call, hrunning, hnext⟩ := Option.bind_eq_some_iff.mp hstep
    have hget := calls_of_running hrunning
    split at hnext
    · next hwait =>
      simp only [Option.ite_none_left_eq_some, Option.some.injEq] at hnext
      obtain ⟨hcut, rfl⟩ := hnext
      exact .change _ k call _ hget
        (.exitFails error hrunning hwait (Bool.eq_false_iff.mpr hcut))
    · next reason hwait =>
      obtain rfl := Option.some.inj hnext
      exact .change _ k call _ hget (.reapFails error reason hrunning hwait)
    · cases hnext
  | kill k =>
    obtain ⟨call, hrunning, hnext⟩ := Option.bind_eq_some_iff.mp hstep
    have hget := calls_of_running hrunning
    split at hnext
    · next status hwait =>
      obtain ⟨custody, hact, rfl⟩ := act_eq_some hnext
      exact .changeAct _ k call _ _ custody hget (.kill status hrunning hwait) hact
    · cases hnext
  | join k =>
    obtain ⟨call, hrunning, hnext⟩ := Option.bind_eq_some_iff.mp hstep
    obtain ⟨outcome, hjoined, hnext⟩ := Option.bind_eq_some_iff.mp hnext
    obtain rfl := Option.some.inj hnext
    have hget := calls_of_running hrunning
    exact .change _ k call _ hget (.join outcome hrunning hjoined)
  | close k =>
    obtain ⟨call, hget, hnext⟩ := Option.bind_eq_some_iff.mp hstep
    simp only [Option.ite_none_right_eq_some] at hnext
    obtain ⟨houtcome, hclose⟩ := hnext
    obtain ⟨custody, hact, rfl⟩ := act_eq_some hclose
    exact .act _ _ custody (.close k call hget houtcome) hact
  | drop k =>
    obtain ⟨call, hrunning, hnext⟩ := Option.bind_eq_some_iff.mp hstep
    split at hnext
    · cases hnext
    · obtain ⟨custody, hact, rfl⟩ := act_eq_some hnext
      exact .act _ _ custody (.drop k call hrunning) hact
  | remove k =>
    obtain ⟨custody, hact, rfl⟩ := act_eq_some hstep
    exact .act _ _ custody (.remove k) hact
  | cancelProcesses group =>
    obtain ⟨custody, hact, rfl⟩ := act_eq_some hstep
    exact .act _ _ custody (.cancelProcesses group) hact

end

end Kyora.Shell
