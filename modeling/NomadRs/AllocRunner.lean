import NomadRs.Entities
import NomadRs.TaskRunner
import NomadRs.Transition

/-!
# Alloc runners

An `AllocRunner` drives the tasks of one allocation and rolls their states up into its status. Runs
are sequences of its operations, with processes that exit at any moment between them: no operation
looks at a process twice, so that an exit during an operation is one before or after it.

Nothing is left running when the status is terminal as long as no operation makes it terminal while
a process is alive that it does not stop (`nothing_left_running`). A failure stays recorded until an
operation overwrites it (`failure_sticks`).
-/

namespace NomadRs

/-- `alloc` is the allocation being run; there is one runner per task of its group. -/
structure AllocRunner where
  alloc : Allocation
  runners : List TaskRunner

namespace AllocRunner

def new (alloc : Allocation) (tasks : List ConfiguredTask) : AllocRunner :=
  { alloc, runners := tasks.map .new }

def status (self : AllocRunner) : ClientStatus := self.alloc.clientStatus

def setStatus (self : AllocRunner) (status : ClientStatus) : AllocRunner :=
  { self with alloc := { self.alloc with clientStatus := status } }

def pollAll (os : ℕ → Answers) : List TaskRunner → Result (List TaskState) × List TaskRunner
  | [] => (.ok [], [])
  | r :: rs =>
    match r.poll (os 0) with
    | (.error e, r) => (.error e, r :: rs)
    | (.ok state, r) =>
      match pollAll (fun i => os (i + 1)) rs with
      | (.error e, rs) => (.error e, r :: rs)
      | (.ok states, rs) => (.ok (state :: states), r :: rs)

def taskStates (self : AllocRunner) (os : ℕ → Answers) :
    Result (List TaskState) × AllocRunner :=
  let (states, runners) := pollAll os self.runners
  (states, { self with runners })

/-- The status that the states of the tasks roll up to; the current one if they do not say. -/
def rollUp (current : ClientStatus) (states : List TaskState) : ClientStatus :=
  if states.contains .failed then .failed
  else if !states.isEmpty && states.all fun s => s == .exited then .complete
  else current

def refreshStatus (self : AllocRunner) (os : ℕ → Answers) : Result ClientStatus × AllocRunner :=
  if self.status = .complete ∨ self.status = .failed then (.ok self.status, self)
  else
    match self.taskStates os with
    | (.error e, self) => (.error e, self)
    | (.ok states, self) =>
      let self := self.setStatus (rollUp self.status states)
      (.ok self.status, self)

/-- Start one runner after the other. If one fails, those before it are stopped again, the last of
them first. -/
def startAll (os : ℕ → Answers) : List TaskRunner → Result Unit × List TaskRunner
  | [] => (.ok (), [])
  | r :: rs =>
    match r.start (os 0) with
    | (.error e, r) => (.error e, r :: rs)
    | (.ok _, r) =>
      match startAll (fun i => os (i + 1)) rs with
      | (.error e, rs) => (.error e, (r.stop (os 0)).2 :: rs)
      | (.ok _, rs) => (.ok (), r :: rs)

def run (self : AllocRunner) (os : ℕ → Answers) : Result Unit × AllocRunner :=
  match startAll os self.runners with
  | (.error e, runners) => (.error e, { self with runners }.setStatus .failed)
  | (.ok _, runners) => (.ok (), { self with runners }.setStatus .running)

def stopAll (os : ℕ → Answers) : List TaskRunner → Result Unit × List TaskRunner
  | [] => (.ok (), [])
  | r :: rs =>
    match r.stop (os 0), stopAll (fun i => os (i + 1)) rs with
    | (.error e, r), (_, rs) => (.error e, r :: rs)
    | (.ok _, r), (result, rs) => (result, r :: rs)

def destroy (self : AllocRunner) (os : ℕ → Answers) : Result Unit × AllocRunner :=
  let (result, runners) := stopAll os self.runners
  (result, { self with runners }.setStatus .complete)

def Alive (self : AllocRunner) : Prop := ∃ r ∈ self.runners, r.Alive

instance (self : AllocRunner) : Decidable self.Alive :=
  inferInstanceAs (Decidable (∃ r ∈ self.runners, _))

/-- The scheduler takes the capacity of the allocation for free. -/
def Finished (self : AllocRunner) : Prop := self.status = .complete ∨ self.status = .failed

end AllocRunner

/-! ## Runs -/

/-- `os` are the answers for the runner at each position. -/
inductive AllocEvent
  | run (os : ℕ → Answers)
  | taskStates (os : ℕ → Answers)
  | refreshStatus (os : ℕ → Answers)
  | destroy (os : ℕ → Answers)
  | processExits (i : ℕ) (id : String) (success : Bool)

def AllocRunner.next (self : AllocRunner) : AllocEvent → AllocRunner
  | .run os => (self.run os).2
  | .taskStates os => (self.taskStates os).2
  | .refreshStatus os => (self.refreshStatus os).2
  | .destroy os => (self.destroy os).2
  | .processExits i id success =>
      { self with runners := self.runners.modify i fun r => r.processExits id success }

def allocSystem : System AllocRunner AllocEvent where
  start s := ∃ alloc tasks, s = .new alloc tasks
  step s event s' := s' = s.next event

def AllocEvent.StopsTasks : AllocEvent → Prop
  | .run os | .taskStates os | .refreshStatus os | .destroy os => ∀ i, (os i).survives = false
  | .processExits .. => True

/-! ## What the operations do to the runners -/

namespace AllocRunner

variable {os : ℕ → Answers} {rs : List TaskRunner}

theorem forall_getElem_cons {P : ℕ → TaskRunner → Prop} {r : TaskRunner} :
    (∀ i t, (r :: rs)[i]? = some t → P i t) ↔ P 0 r ∧ ∀ i t, rs[i]? = some t → P (i + 1) t := by
  constructor
  · exact fun h => ⟨h 0 r rfl, fun i t ht => h (i + 1) t ht⟩
  · rintro ⟨h0, hrest⟩ i t ht
    cases i with
    | zero => exact Option.some_inj.1 ht ▸ h0
    | succ i => exact hrest i t ht

theorem startAll_eq_ok_iff :
    (startAll os rs).1 = .ok () ↔ ∀ i (r : TaskRunner), rs[i]? = some r → r.CanStart (os i) := by
  induction rs generalizing os with
  | nil => simp [startAll]
  | cons r rs ih =>
      rw [forall_getElem_cons, ← TaskRunner.start_eq_ok_iff, ← ih, startAll]
      rcases r.start (os 0) with ⟨_ | _, r'⟩
      · simp
      · rcases startAll (fun i => os (i + 1)) rs with ⟨_ | _, rs'⟩ <;> simp

theorem startAll_tracked (hkill : ∀ i, (os i).survives = false) (h : ∀ r ∈ rs, r.Tracked) :
    (∀ r ∈ (startAll os rs).2, r.Tracked) ∧ ∀ e, (startAll os rs).1 = .error e →
      ((∃ r ∈ (startAll os rs).2, r.Alive) ↔ ∃ r ∈ rs, r.Alive) := by
  induction rs generalizing os with
  | nil => simp [startAll]
  | cons r rs ih =>
      obtain ⟨hr, hrs⟩ := List.forall_mem_cons.1 h
      obtain ⟨htracked, hback⟩ := ih (fun i => hkill (i + 1)) hrs
      have hstart := hr.start (os 0)
      have hdead : (r.start (os 0)).1 = .ok () → ¬ r.Alive := hr.not_alive_of_start
      have hfailed := @TaskRunner.start_of_error r (os 0)
      rw [startAll]
      rcases hres : r.start (os 0) with ⟨_ | _, r'⟩
      · rw [hres] at hfailed
        rw [show r' = r from hfailed rfl]
        exact ⟨h, fun _ _ => Iff.rfl⟩
      · rw [hres] at hstart hdead
        rcases hrest : startAll (fun i => os (i + 1)) rs with ⟨_ | _, rs'⟩
        · rw [hrest] at htracked hback
          obtain ⟨hstop, hstopped⟩ := hstart.stop (hkill 0)
          refine ⟨List.forall_mem_cons.2 ⟨hstop, htracked⟩, fun _ _ => ?_⟩
          simp only [List.exists_mem_cons_iff, hstopped, hdead rfl, false_or]
          exact hback _ rfl
        · rw [hrest] at htracked
          exact ⟨List.forall_mem_cons.2 ⟨hstart, htracked⟩, fun _ he => by cases he⟩

theorem stopAll_tracked (hkill : ∀ i, (os i).survives = false) (h : ∀ r ∈ rs, r.Tracked) :
    ∀ r ∈ (stopAll os rs).2, r.Tracked ∧ ¬ r.Alive := by
  induction rs generalizing os with
  | nil => simp [stopAll]
  | cons r rs ih =>
      obtain ⟨hr, hrs⟩ := List.forall_mem_cons.1 h
      have hstop := hr.stop (hkill 0)
      have hrest := ih (fun i => hkill (i + 1)) hrs
      rw [stopAll]
      rcases hres : r.stop (os 0) with ⟨_ | _, r'⟩ <;> rw [hres] at hstop <;>
        exact List.forall_mem_cons.2 ⟨hstop, hrest⟩

theorem pollAll_tracked (os : ℕ → Answers) (h : ∀ r ∈ rs, r.Tracked) :
    (∀ r ∈ (pollAll os rs).2, r.Tracked) ∧
    ((∃ r ∈ (pollAll os rs).2, r.Alive) ↔ ∃ r ∈ rs, r.Alive) ∧
    ∀ states, (pollAll os rs).1 = .ok states →
      states = (pollAll os rs).2.map TaskRunner.state := by
  induction rs generalizing os with
  | nil => simp [pollAll]
  | cons r rs ih =>
      obtain ⟨hr, hrs⟩ := List.forall_mem_cons.1 h
      obtain ⟨hpoll, halive, hstate⟩ := hr.poll (os 0)
      obtain ⟨hpolls, halives, hstates⟩ := ih (fun i => os (i + 1)) hrs
      rw [pollAll]
      rcases hres : r.poll (os 0) with ⟨_ | state, r'⟩
      · rw [hres] at hpoll halive
        refine ⟨List.forall_mem_cons.2 ⟨hpoll, hrs⟩, ?_, fun _ hst => by cases hst⟩
        simp only [List.exists_mem_cons_iff, halive]
      · rw [hres] at hpoll halive hstate
        rcases hrest : pollAll (fun i => os (i + 1)) rs with ⟨_ | states, rs'⟩
        · rw [hrest] at hpolls halives
          refine ⟨List.forall_mem_cons.2 ⟨hpoll, hpolls⟩, ?_, fun _ hst => by cases hst⟩
          simp only [List.exists_mem_cons_iff, halive, halives]
        · rw [hrest] at hpolls halives hstates
          refine ⟨List.forall_mem_cons.2 ⟨hpoll, hpolls⟩, ?_, fun _ hst => ?_⟩
          · simp only [List.exists_mem_cons_iff, halive, halives]
          · rw [← Except.ok.inj hst, List.map_cons, hstate state rfl, ← hstates states rfl]

theorem pollAll_eq_ok_iff : (∃ states, (pollAll os rs).1 = .ok states) ↔
    ∀ i (r : TaskRunner), rs[i]? = some r → ¬ r.Unknowable (os i) := by
  induction rs generalizing os with
  | nil => simp [pollAll]
  | cons r rs ih =>
      rw [forall_getElem_cons, ← TaskRunner.poll_eq_error_iff, ← ih, pollAll]
      rcases r.poll (os 0) with ⟨_ | state, r'⟩
      · simp
      · rcases pollAll (fun i => os (i + 1)) rs with ⟨_ | states, rs'⟩ <;> simp

theorem failed_mem_iff {states : List TaskState} (h : (pollAll os rs).1 = .ok states) :
    .failed ∈ states ↔ ∃ r ∈ rs, r.HasFailed := by
  induction rs generalizing os states with
  | nil =>
      cases h
      simp
  | cons r rs ih =>
      have hfailed := @TaskRunner.poll_eq_failed_iff r (os 0)
      rw [← TaskRunner.poll_eq_error_iff] at hfailed
      rw [pollAll] at h
      rcases hpoll : r.poll (os 0) with ⟨_ | state, r'⟩ <;> rw [hpoll] at h hfailed
      · cases h
      · rcases hrest : pollAll (fun i => os (i + 1)) rs with ⟨_ | states, rs'⟩ <;> rw [hrest] at h
        · cases h
        · have hstate : state = .failed ↔ r.HasFailed := by simpa using hfailed
          rw [← Except.ok.inj h, List.mem_cons, List.exists_mem_cons_iff,
            ih (congrArg Prod.fst hrest), eq_comm, hstate]

/-! ## Nothing is left running -/

/-- The runners know of all their processes, and none is alive in a terminal status. -/
structure Supervised (s : AllocRunner) : Prop where
  tracked : ∀ r ∈ s.runners, r.Tracked
  finished : s.Finished → ¬ s.Alive

/-- No process is alive that the operation, ending in a terminal status, would not stop. -/
def LeavesNothing (s : AllocRunner) : AllocEvent → Prop
  | .run _ => ¬ s.Alive
  | .refreshStatus os => ¬ (s.Alive ∧ (∃ r ∈ s.runners, r.HasFailed) ∧
      ∀ i (r : TaskRunner), s.runners[i]? = some r → ¬ r.Unknowable (os i))
  | .taskStates _ | .destroy _ | .processExits .. => True

variable {s s' : AllocRunner}

theorem Supervised.new (alloc : Allocation) (tasks : List ConfiguredTask) :
    (new alloc tasks).Supervised := by
  have htracked : ∀ r ∈ (AllocRunner.new alloc tasks).runners, r.Tracked ∧ ¬ r.Alive := by
    intro r hr
    obtain ⟨task, _, rfl⟩ := List.mem_map.1 hr
    exact ⟨.new task, (TaskRunner.Tracked.new task).not_alive_of_no_handle rfl⟩
  exact ⟨fun r hr => (htracked r hr).1, fun _ ⟨r, hr, halive⟩ => (htracked r hr).2 halive⟩

theorem Supervised.run (h : s.Supervised) (hkill : ∀ i, (os i).survives = false) :
    (s.run os).2.Supervised ↔ ¬ s.Alive := by
  obtain ⟨htracked, hback⟩ := startAll_tracked hkill h.tracked
  have hok : (startAll os s.runners).1 = .ok () → ¬ s.Alive := by
    rintro hall ⟨r, hr, halive⟩
    obtain ⟨i, hi⟩ := List.mem_iff_getElem?.1 hr
    have hstart := startAll_eq_ok_iff.1 hall i r hi
    exact (h.tracked r hr).not_alive_of_no_handle hstart.1 halive
  unfold AllocRunner.run
  rcases hres : startAll os s.runners with ⟨e | _, runners⟩
  · rw [hres] at htracked hback
    have halive : Alive { s with runners } ↔ s.Alive := hback e rfl
    exact ⟨fun hsup => mt halive.2 (hsup.finished (.inr rfl)),
      fun hdead => ⟨htracked, fun _ => mt halive.1 hdead⟩⟩
  · rw [hres] at htracked hok
    refine iff_of_true ⟨htracked, fun hfin => ?_⟩ (hok rfl)
    rcases hfin with hfin | hfin <;> cases hfin

theorem rollUp_cases (current : ClientStatus) (states : List TaskState) :
    (.failed ∈ states ∧ rollUp current states = .failed) ∨
    (.failed ∉ states ∧ (∀ st ∈ states, st = .exited) ∧ rollUp current states = .complete) ∨
    (.failed ∉ states ∧ rollUp current states = current) := by
  unfold rollUp
  by_cases hfailed : .failed ∈ states
  · exact .inl ⟨hfailed, if_pos (List.contains_iff_mem.2 hfailed)⟩
  · rw [if_neg (mt List.contains_iff_mem.1 hfailed)]
    split
    next hall =>
      rw [Bool.and_eq_true, List.all_eq_true] at hall
      exact .inr (.inl ⟨hfailed, fun st hst => by simpa using hall.2 st hst, rfl⟩)
    next => exact .inr (.inr ⟨hfailed, rfl⟩)

theorem Supervised.refreshStatus (h : s.Supervised) (os : ℕ → Answers) :
    (s.refreshStatus os).2.Supervised ↔ s.LeavesNothing (.refreshStatus os) := by
  unfold AllocRunner.refreshStatus
  by_cases hfin : s.status = .complete ∨ s.status = .failed
  · rw [if_pos hfin]
    exact iff_of_true h fun hleft => h.finished hfin hleft.1
  · rw [if_neg hfin, LeavesNothing, ← pollAll_eq_ok_iff, AllocRunner.taskStates]
    obtain ⟨htracked, halive, hstates⟩ := pollAll_tracked os h.tracked
    have hfailed := @failed_mem_iff os s.runners
    rcases hres : pollAll os s.runners with ⟨e | states, runners⟩
    · rw [hres] at htracked
      refine iff_of_true ⟨htracked, fun hfin' => absurd hfin' hfin⟩ ?_
      rintro ⟨_, _, _, hst⟩
      cases hst
    · rw [hres] at htracked halive hstates hfailed
      have hstates := hstates states rfl
      have hfailed := hfailed rfl
      have hback : Alive { s with runners } ↔ s.Alive := halive
      have hok : ∃ st, (Except.ok states : Result (List TaskState)) = .ok st := ⟨states, rfl⟩
      dsimp only
      rcases rollUp_cases (AllocRunner.status { s with runners }) states with
        ⟨hmem, hroll⟩ | ⟨hnone, hall, hroll⟩ | ⟨hnone, hroll⟩ <;> rw [hroll]
      · -- a failure ends the alloc, and the other tasks go on
        rw [and_iff_left hok, and_iff_left (hfailed.1 hmem)]
        exact ⟨fun hsup => mt hback.2 (hsup.finished (.inr rfl)),
          fun hdead => ⟨htracked, fun _ => mt hback.1 hdead⟩⟩
      · have hdead : ¬ Alive { s with runners } := by
          rintro ⟨r, hr, hrunning⟩
          refine (htracked r hr).ended (.inl (hall _ ?_)) hrunning
          exact hstates ▸ List.mem_map_of_mem hr
        exact iff_of_true ⟨htracked, fun _ => hdead⟩ fun hleft => hdead (hback.2 hleft.1)
      · exact iff_of_true ⟨htracked, fun hfin' => absurd hfin' hfin⟩
          fun hleft => hnone (hfailed.2 hleft.2.1)

/-- An operation leaves nothing running in a terminal status exactly if it meets the condition. -/
theorem Supervised.next_iff (h : s.Supervised) {event : AllocEvent} (hkill : event.StopsTasks) :
    (s.next event).Supervised ↔ s.LeavesNothing event := by
  cases event with
  | run os => exact h.run hkill
  | taskStates os =>
      obtain ⟨htracked, halive, _⟩ := pollAll_tracked os h.tracked
      exact iff_of_true ⟨htracked, fun hfin => mt halive.1 (h.finished hfin)⟩ trivial
  | refreshStatus os => exact h.refreshStatus os
  | destroy os =>
      have hstopped := stopAll_tracked hkill h.tracked
      exact iff_of_true ⟨fun r hr => (hstopped r hr).1,
        fun _ ⟨r, hr, halive⟩ => (hstopped r hr).2 halive⟩ trivial
  | processExits i id success =>
      have hmem {r : TaskRunner} (hr : r ∈ (s.next (.processExits i id success)).runners) :
          ∃ r₀ ∈ s.runners, r.Tracked ∧ (r.Alive → r₀.Alive) := by
        obtain ⟨j, hj⟩ := List.mem_iff_getElem?.1 hr
        rw [AllocRunner.next, List.getElem?_modify, Option.map_eq_map,
          Option.map_eq_some_iff] at hj
        obtain ⟨r₀, hr₀, rfl⟩ := hj
        have hmem₀ := List.mem_of_getElem? hr₀
        refine ⟨r₀, hmem₀, ?_⟩
        split
        · exact (h.tracked r₀ hmem₀).processExits id success
        · exact ⟨h.tracked r₀ hmem₀, fun halive => halive⟩
      refine iff_of_true ⟨fun r hr => ?_, fun hfin => ?_⟩ trivial
      · obtain ⟨_, _, htracked, _⟩ := hmem hr
        exact htracked
      · rintro ⟨r, hr, halive⟩
        obtain ⟨r₀, hr₀, _, hback⟩ := hmem hr
        exact h.finished hfin ⟨r₀, hr₀, hback halive⟩

end AllocRunner

/-- If no operation that ends an allocation leaves something running, nothing is ever running when
the allocation is finished. -/
theorem nothing_left_running {s : AllocRunner} (h : allocSystem.ReachableVia
      (fun s event => event.StopsTasks ∧ s.LeavesNothing event) s)
    (hfin : s.status = .complete ∨ s.status = .failed) : ∀ r ∈ s.runners, ¬ r.Alive := by
  have hsup : s.Supervised := by
    refine h.invariant AllocRunner.Supervised ?_ ?_
    · rintro _ ⟨alloc, tasks, rfl⟩
      exact .new alloc tasks
    · rintro s event _ hs ⟨hkill, hleaves⟩ rfl
      exact (hs.next_iff hkill).2 hleaves
  exact fun r hr halive => hsup.finished hfin ⟨r, hr, halive⟩

def sleepTask : ConfiguredTask where
  name := "web"
  driver := "exec"
  resources := ⟨100, 256, 0⟩
  config := ((∅ : HashMap String JsonValue).insert "args" (.array [.string "30"])).insert
    "command" (.string "sleep")

def sleepAlloc : Allocation where
  id := "a1"
  evalId := "e1"
  nodeId := "n1"
  jobId := "redis"
  taskGroup := "cache"
  desiredStatus := .run
  clientStatus := .pending
  resources := ⟨100, 256, 0⟩

def succeeding (_ : ℕ) : Answers := { spawn := fun _ _ => .ok 7 }

def sleeping : AllocRunner := (AllocRunner.new sleepAlloc [sleepTask]).next (.run succeeding)

def noticed : AllocRunner :=
  (sleeping.next (.processExits 0 "7" true)).next (.refreshStatus succeeding)

theorem nothing_left_running_noticed : noticed.status = .complete ∧ ¬ noticed.Alive := by
  have hstart : allocSystem.ReachableVia (fun s event => event.StopsTasks ∧ s.LeavesNothing event)
      (AllocRunner.new sleepAlloc [sleepTask]) := .start ⟨_, _, rfl⟩
  have hnone : ¬ (AllocRunner.new sleepAlloc [sleepTask]).Alive := by decide
  have hexited : ¬ (sleeping.next (.processExits 0 "7" true)).Alive := by decide
  have hcomplete : noticed.status = .complete := by decide
  have hrun := hstart.next (l := AllocEvent.run succeeding) rfl ⟨fun _ => rfl, hnone⟩
  have hexit := hrun.next (l := AllocEvent.processExits 0 "7" true) rfl ⟨trivial, trivial⟩
  have hnoticed := hexit.next (l := AllocEvent.refreshStatus succeeding) rfl
    ⟨fun _ => rfl, fun hleft => hexited hleft.1⟩
  exact ⟨hcomplete, fun ⟨r, hr, halive⟩ =>
    nothing_left_running hnoticed (.inl hcomplete) r hr halive⟩

/-- A second run fails since the task is started already, and leaves it running. -/
theorem left_running : ¬ ∀ s, allocSystem.ReachableVia (fun _ event => event.StopsTasks) s →
    s.status = .complete ∨ s.status = .failed → ∀ r ∈ s.runners, ¬ r.Alive := by
  intro h
  have hstart : allocSystem.ReachableVia (fun _ event => event.StopsTasks)
      (AllocRunner.new sleepAlloc [sleepTask]) := .start ⟨_, _, rfl⟩
  have hrun := hstart.next (l := AllocEvent.run succeeding) rfl fun _ => rfl
  have hagain := hrun.next (l := AllocEvent.run succeeding) rfl fun _ => rfl
  have hdead := h _ hagain (by decide)
  revert hdead
  decide

/-! ## A failure stays recorded -/

namespace AllocRunner

/-- The operation is no `destroy`, and no `run` that starts all tasks. -/
def KeepsFailure (s : AllocRunner) : AllocEvent → Prop
  | .run os => ∃ i, ∃ r : TaskRunner, s.runners[i]? = some r ∧ ¬ r.CanStart (os i)
  | .destroy _ => False
  | .taskStates _ | .refreshStatus _ | .processExits .. => True

theorem failed_next_iff {s : AllocRunner} (h : s.status = .failed) (event : AllocEvent) :
    (s.next event).status = .failed ↔ s.KeepsFailure event := by
  cases event with
  | run os =>
      have hok := @startAll_eq_ok_iff os s.runners
      have hnot : s.KeepsFailure (.run os) ↔ ¬ (startAll os s.runners).1 = .ok () := by
        rw [hok, KeepsFailure]
        push Not
        rfl
      rw [hnot, next, AllocRunner.run]
      rcases startAll os s.runners with ⟨_ | _, runners⟩ <;> simp [setStatus, status]
  | taskStates os => exact iff_of_true h trivial
  | refreshStatus os =>
      refine iff_of_true ?_ trivial
      rw [next, AllocRunner.refreshStatus, if_pos (.inr h)]
      exact h
  | destroy os => exact iff_of_false (fun hfailed => by cases hfailed) id
  | processExits i id success => exact iff_of_true h trivial

end AllocRunner

/-- A failed allocation stays failed until it is destroyed or all its tasks are started; a failed
task stays failed until it is stopped. -/
theorem failure_sticks (s s' : AllocRunner) (r r' : TaskRunner) :
    (s.status = .failed →
      (allocSystem.startingAt s).ReachableVia (fun s event => s.KeepsFailure event) s' →
      s'.status = .failed) ∧
    (r.state = .failed →
      (taskSystem.startingAt r).ReachableVia
        (fun r event => event.PollOrStop ∧ r.KeepsFailure event) r' →
      r'.state = .failed) := by
  constructor
  · intro hs h
    refine h.related (fun _ t => t.status = .failed) hs ?_
    rintro t event _ ht hkeeps rfl
    exact (AllocRunner.failed_next_iff ht event).2 hkeeps
  · intro hr h
    refine h.related (fun _ t => t.state = .failed) hr ?_
    rintro t event _ ht ⟨hcall, hkeeps⟩ rfl
    exact (TaskRunner.failed_next_iff ht hcall).2 hkeeps

def badTask : ConfiguredTask :=
  { sleepTask with driver := "docker" }

def failedRun : AllocRunner := (AllocRunner.new sleepAlloc [badTask]).next (.run succeeding)

def failedTask : TaskRunner :=
  (((TaskRunner.new sleepTask).next (.start (succeeding 0))).next (.processExits "7" false)).next
    (.poll (succeeding 0))

theorem failure_sticks_refreshed : (failedRun.next (.refreshStatus succeeding)).status = .failed ∧
    (failedTask.next (.poll (succeeding 0))).state = .failed :=
  have hsticks := failure_sticks failedRun (failedRun.next (.refreshStatus succeeding)) failedTask
    (failedTask.next (.poll (succeeding 0)))
  ⟨hsticks.1 rfl
      ((System.ReachableVia.start rfl).next (l := AllocEvent.refreshStatus succeeding) rfl trivial),
    hsticks.2 (by decide) ((System.ReachableVia.start rfl).next
      (l := TaskEvent.poll (succeeding 0)) rfl ⟨trivial, trivial⟩)⟩

/-- A failed allocation is complete once it is destroyed, and a failed task exited once it is
stopped. -/
theorem failure_downgraded :
    (¬ ∀ s s' : AllocRunner, allocSystem.Reachable s → s.status = .failed →
      (allocSystem.startingAt s).Reachable s' → s'.status = .failed) ∧
    (¬ ∀ r r' : TaskRunner, taskSystem.Reachable r → r.state = .failed →
      (taskSystem.startingAt r).ReachableVia (fun _ event => event.PollOrStop) r' →
      r'.state = .failed) := by
  constructor
  · intro h
    have hstart : allocSystem.Reachable (AllocRunner.new sleepAlloc [badTask]) :=
      .start ⟨_, _, rfl⟩
    have hrun : allocSystem.Reachable failedRun :=
      hstart.next (l := AllocEvent.run succeeding) rfl
    have hfailed := h failedRun _ hrun rfl ((System.ReachableVia.start rfl).next
      (l := AllocEvent.destroy succeeding) rfl trivial)
    revert hfailed
    decide
  · intro h
    have hstart : taskSystem.Reachable (TaskRunner.new sleepTask) :=
      .start ⟨sleepTask, (TaskRunner.new sleepTask).restartPolicy, rfl⟩
    have htask : taskSystem.Reachable failedTask :=
      ((hstart.next (l := TaskEvent.start (succeeding 0)) rfl).next
        (l := TaskEvent.processExits "7" false) rfl).next
        (l := TaskEvent.poll (succeeding 0)) rfl
    have hfailed := h failedTask _ htask (by decide) ((System.ReachableVia.start rfl).next
      (l := TaskEvent.stop (succeeding 0)) rfl trivial)
    revert hfailed
    decide

end NomadRs
