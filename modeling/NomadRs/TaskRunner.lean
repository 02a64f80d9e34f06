import NomadRs.Driver
import NomadRs.Transition

/-!
# Task runners

A `TaskRunner` drives one task through its lifecycle: it starts the task, polls and stops it, and
applies the restart policy when it is told of an exit. `Tracked` is what its state says about the
process: there is none before a start, and none is alive in the states `exited` and `failed`.
-/

namespace NomadRs

inductive RestartMode
  | delay | fail
  deriving DecidableEq

structure RestartPolicy where
  attempts : ℕ
  intervalSecs : ℕ
  delaySecs : ℕ
  mode : RestartMode

structure TaskRunner where
  task : ConfiguredTask
  driver : ExecDriver
  handle : Option TaskHandle
  state : TaskState
  restartCount : ℕ
  restartPolicy : RestartPolicy

namespace TaskRunner

def new (task : ConfiguredTask) : TaskRunner where
  task := task
  driver := {}
  handle := none
  state := .pending
  restartCount := 0
  restartPolicy := { attempts := 2, intervalSecs := 1800, delaySecs := 15, mode := .fail }

def withRestartPolicy (self : TaskRunner) (policy : RestartPolicy) : TaskRunner :=
  { self with restartPolicy := policy }

def start (self : TaskRunner) (os : Answers) : Result Unit × TaskRunner :=
  if self.handle.isSome then
    (.error (.runtime s!"task '{self.task.name}' already started"), self)
  else if self.task.driver ≠ ExecDriver.name then
    (.error (.runtime s!"unsupported task driver '{self.task.driver}'"), self)
  else
    match self.driver.startTask self.task os with
    | (.error e, driver) => (.error e, { self with driver })
    | (.ok handle, driver) => (.ok (), { self with driver, state := handle.state, handle })

/-- A recorded end is not looked at again: the driver no longer knows how the task ended. -/
def poll (self : TaskRunner) (os : Answers) : Result TaskState × TaskRunner :=
  if self.state = .exited ∨ self.state = .failed then (.ok self.state, self)
  else
    match self.handle with
    | none => (.ok self.state, self)
    | some handle =>
      match self.driver.inspectTask handle os with
      | (.error e, driver) => (.error e, { self with driver })
      | (.ok state, driver) => (.ok state, { self with driver, state })

def stop (self : TaskRunner) (os : Answers) : Result Unit × TaskRunner :=
  match self.handle with
  | none => (.ok (), { self with state := .exited })
  | some handle =>
    match self.driver.stopTask handle os with
    | (.error e, driver) => (.error e, { self with driver })
    | (.ok _, driver) => (.ok (), { self with driver, state := .exited })

def handleExit (self : TaskRunner) (success : Bool) : Bool × TaskRunner :=
  if success then (false, { self with state := .exited })
  else if self.restartCount < self.restartPolicy.attempts then
    (true, { self with restartCount := self.restartCount + 1, state := .pending, handle := none })
  else (false, { self with state := .failed })

def processExits (self : TaskRunner) (id : String) (success : Bool) : TaskRunner :=
  { self with driver := self.driver.processExits id success }

def Alive (self : TaskRunner) : Prop := self.driver.Alive

instance (self : TaskRunner) : Decidable self.Alive :=
  inferInstanceAs (Decidable self.driver.Alive)

/-! ## What the operations depend on -/

def CanStart (self : TaskRunner) (os : Answers) : Prop :=
  self.handle = none ∧ self.task.driver = ExecDriver.name ∧
    ∃ command args, ExecDriver.commandLine self.task = .ok (command, args) ∧
      ∃ pid, os.spawn command args = .ok pid

def runningChild (self : TaskRunner) : Option Child :=
  self.handle.bind fun handle => self.driver.running.lookup handle.id

/-- The task has ended without success, whether or not this has been noticed. -/
def HasFailed (self : TaskRunner) : Prop :=
  self.state = .failed ∨ (self.state ≠ .exited ∧ self.runningChild = some { exit := some false })

def Unknowable (self : TaskRunner) (os : Answers) : Prop :=
  self.state ≠ .exited ∧ self.state ≠ .failed ∧ self.runningChild ≠ none ∧ os.waitError ≠ none

variable {r : TaskRunner} {os : Answers}

theorem start_eq_ok_iff : (r.start os).1 = .ok () ↔ r.CanStart os := by
  unfold start CanStart
  split
  next hhandle => simp [Option.isSome_iff_ne_none.1 hhandle]
  next hhandle =>
    rw [Option.not_isSome_iff_eq_none] at hhandle
    split
    next hdriver => simp [hdriver]
    next hdriver =>
      rw [ne_eq, not_not] at hdriver
      simp only [hhandle, hdriver, true_and, ExecDriver.startTask]
      cases ExecDriver.commandLine r.task with
      | error e => simp
      | ok line =>
          obtain ⟨command, args⟩ := line
          cases hspawn : os.spawn command args <;> simp [hspawn]

/-- A start fails and changes nothing, or the driver has started the task. -/
theorem start_cases (r : TaskRunner) (os : Answers) : (∃ e, r.start os = (.error e, r)) ∨
    ∃ handle driver, r.handle = none ∧ r.driver.startTask r.task os = (.ok handle, driver) ∧
      r.start os = (.ok (), { r with driver, state := handle.state, handle := some handle }) := by
  unfold start
  split
  next => exact .inl ⟨_, rfl⟩
  next hhandle =>
    rw [Option.not_isSome_iff_eq_none] at hhandle
    split
    next => exact .inl ⟨_, rfl⟩
    next =>
      cases hstart : r.driver.startTask r.task os with
      | mk result driver =>
          cases result with
          | error e =>
              have hsame : driver = r.driver := by
                rw [← ExecDriver.startTask_error (congrArg Prod.fst hstart), hstart]
              exact .inl ⟨e, by rw [hsame]⟩
          | ok handle => exact .inr ⟨handle, driver, hhandle, rfl, rfl⟩

theorem poll_of_not_ended (h : ¬ (r.state = .exited ∨ r.state = .failed)) :
    (r.poll os).1 = match r.handle, r.runningChild with
      | none, _ => .ok r.state
      | some _, none => .ok .exited
      | some _, some child =>
        match os.waitError, child.exit with
        | some e, _ => .error e
        | none, some success => .ok (if success then .exited else .failed)
        | none, none => .ok .running := by
  unfold poll runningChild
  rw [if_neg h]
  cases hhandle : r.handle with
  | none => simp
  | some handle =>
      simp only [ExecDriver.inspectTask, Option.bind_some]
      cases r.driver.running.lookup handle.id with
      | none => rfl
      | some child => cases os.waitError <;> cases hexit : child.exit <;> simp [hexit]

theorem poll_eq_error_iff : (∃ e, (r.poll os).1 = .error e) ↔ r.Unknowable os := by
  by_cases hended : r.state = .exited ∨ r.state = .failed
  · rw [poll, if_pos hended, Unknowable]
    refine iff_of_false (by simp) fun h => ?_
    exact hended.elim h.1 h.2.1
  · rw [poll_of_not_ended hended, Unknowable]
    rw [not_or] at hended
    cases hhandle : r.handle with
    | none => simp [runningChild, hhandle]
    | some handle =>
        cases r.runningChild with
        | none => simp
        | some child => cases os.waitError <;> cases hexit : child.exit <;> simp [hexit, hended]

theorem poll_eq_failed_iff : (r.poll os).1 = .ok .failed ↔ r.HasFailed ∧ ¬ r.Unknowable os := by
  by_cases hended : r.state = .exited ∨ r.state = .failed
  · rw [poll, if_pos hended, HasFailed, Unknowable]
    rcases hended with h | h <;> simp [h]
  · rw [poll_of_not_ended hended, HasFailed, Unknowable]
    rw [not_or] at hended
    cases hhandle : r.handle with
    | none => simp [runningChild, hhandle, hended]
    | some handle =>
        cases r.runningChild with
        | none => simp [hended]
        | some child =>
            cases os.waitError with
            | some e => simp [hended]
            | none =>
                obtain ⟨exit⟩ := child
                cases exit with
                | none => simp [hended]
                | some success => cases success <;> simp [hended]

/-! ## What the state says about the process -/

/-- The driver keeps no other child than that of the handle, and an end that is recorded is one. -/
structure Tracked (r : TaskRunner) : Prop where
  driver : r.driver.Tracks (r.handle.map TaskHandle.id)
  ended : r.state = .exited ∨ r.state = .failed → ¬ r.Alive

theorem Tracked.new (task : ConfiguredTask) : (new task).Tracked :=
  ⟨.new, fun h => by simp [TaskRunner.new] at h⟩

theorem Tracked.tracks_none (h : r.Tracked) (hhandle : r.handle = none) : r.driver.Tracks none := by
  have hdriver := h.driver
  rwa [hhandle] at hdriver

theorem Tracked.tracks_some (h : r.Tracked) {handle : TaskHandle}
    (hhandle : r.handle = some handle) :
    r.driver.Tracks (some handle.id) := by
  have hdriver := h.driver
  rwa [hhandle] at hdriver

theorem Tracked.not_alive_of_no_handle (h : r.Tracked) (hhandle : r.handle = none) : ¬ r.Alive :=
  (h.tracks_none hhandle).not_alive

theorem Tracked.start (h : r.Tracked) (os : Answers) : (r.start os).2.Tracked := by
  rcases r.start_cases os with ⟨e, heq⟩ | ⟨handle, driver, hhandle, hstart, heq⟩
  · rwa [heq]
  · obtain ⟨htracks, hstate⟩ :=
      ExecDriver.startTask_ok (h.tracks_none hhandle) (congrArg Prod.fst hstart)
    rw [hstart] at htracks
    rw [heq]
    exact ⟨htracks, by simp [hstate]⟩

theorem Tracked.not_alive_of_start (h : r.Tracked) (hok : (r.start os).1 = .ok ()) :
    ¬ r.Alive := h.not_alive_of_no_handle (start_eq_ok_iff.1 hok).1

theorem start_of_error {e : Error} (h : (r.start os).1 = .error e) : (r.start os).2 = r := by
  rcases r.start_cases os with ⟨_, heq⟩ | ⟨_, _, _, _, heq⟩
  · rw [heq]
  · rw [heq] at h
    cases h

theorem Tracked.stop (h : r.Tracked) (hkill : os.survives = false) :
    (r.stop os).2.Tracked ∧ ¬ (r.stop os).2.Alive := by
  unfold TaskRunner.stop
  split
  next hhandle =>
    have hdead := h.not_alive_of_no_handle hhandle
    exact ⟨⟨h.driver, fun _ => hdead⟩, hdead⟩
  next handle hhandle =>
    have hstopped := ExecDriver.stopTask_tracks (h.tracks_some hhandle) hkill
    cases hstop : r.driver.stopTask handle os with
    | mk result driver =>
        rw [hstop] at hstopped
        have hdead := hstopped.not_alive
        cases result with
        | error e => exact ⟨⟨hstopped.mono _, fun _ => hdead⟩, hdead⟩
        | ok u => exact ⟨⟨hstopped.mono _, fun _ => hdead⟩, hdead⟩

theorem Tracked.poll (h : r.Tracked) (os : Answers) :
    (r.poll os).2.Tracked ∧ ((r.poll os).2.Alive ↔ r.Alive) ∧
      ∀ st, (r.poll os).1 = .ok st → (r.poll os).2.state = st := by
  unfold TaskRunner.poll
  split
  next => exact ⟨h, Iff.rfl, fun st hst => Except.ok.inj hst⟩
  next hended =>
    split
    next => exact ⟨h, Iff.rfl, fun st hst => Except.ok.inj hst⟩
    next handle hhandle =>
      obtain ⟨htracks, halive, hstate⟩ :=
        ExecDriver.inspectTask_tracks os (h.tracks_some hhandle)
      cases hinspect : r.driver.inspectTask handle os with
      | mk result driver =>
          rw [hinspect] at htracks halive hstate
          have hkept : driver.Tracks (r.handle.map TaskHandle.id) := by rwa [hhandle]
          cases result with
          | error e =>
              exact ⟨⟨hkept, fun hstop => absurd hstop hended⟩, halive, fun _ hst => by cases hst⟩
          | ok state =>
              refine ⟨⟨hkept, fun hstop => ?_⟩, halive, fun st hst => Except.ok.inj hst⟩
              rcases hstate state rfl with rfl | hdead
              · simp at hstop
              · exact mt halive.1 hdead

theorem Tracked.processExits (h : r.Tracked) (id : String) (success : Bool) :
    (r.processExits id success).Tracked ∧ ((r.processExits id success).Alive → r.Alive) := by
  obtain ⟨htracks, halive⟩ := ExecDriver.processExits_tracks h.driver id success
  exact ⟨⟨htracks, fun hended => mt halive (h.ended hended)⟩, halive⟩

end TaskRunner

/-! ## Runs -/

inductive TaskEvent
  | start (os : Answers)
  | poll (os : Answers)
  | stop (os : Answers)
  | handleExit (success : Bool)
  | processExits (id : String) (success : Bool)

def TaskRunner.next (self : TaskRunner) : TaskEvent → TaskRunner
  | .start os => (self.start os).2
  | .poll os => (self.poll os).2
  | .stop os => (self.stop os).2
  | .handleExit success => (self.handleExit success).2
  | .processExits id success => self.processExits id success

/-- A task runner under any sequence of calls and exits. -/
def taskSystem : System TaskRunner TaskEvent where
  start r := ∃ task policy, r = (TaskRunner.new task).withRestartPolicy policy
  step r event r' := r' = r.next event

/-- A call of `poll` or `stop`, or something that happens between the calls. -/
def TaskEvent.PollOrStop : TaskEvent → Prop
  | .poll _ | .stop _ | .processExits .. => True
  | .start _ | .handleExit _ => False

namespace TaskRunner

/-- A stop that the driver fails to carry out leaves the state alone. -/
def KeepsFailure (r : TaskRunner) : TaskEvent → Prop
  | .stop os => r.runningChild ≠ none ∧ ∃ e, os.kill = .error e
  | .start _ | .poll _ | .handleExit _ | .processExits .. => True

theorem failed_next_iff {r : TaskRunner} (h : r.state = .failed) {event : TaskEvent}
    (hevent : event.PollOrStop) : (r.next event).state = .failed ↔ r.KeepsFailure event := by
  cases event with
  | start os => cases hevent
  | handleExit success => cases hevent
  | poll os =>
      refine iff_of_true ?_ trivial
      rw [next, poll, if_pos (.inr h)]
      exact h
  | processExits id success => exact iff_of_true h trivial
  | stop os =>
      simp only [next, stop, KeepsFailure, runningChild]
      cases r.handle with
      | none => simp
      | some handle =>
          simp only [ExecDriver.stopTask, Option.bind_some]
          cases r.driver.running.lookup handle.id with
          | none => simp
          | some child => cases hkill : os.kill <;> simp [h]

end TaskRunner
end NomadRs
