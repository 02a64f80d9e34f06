import NomadRs.Instances
import NomadRs.ReleaseServer

/-!
# Instances under registrations of one job

How many live allocations the task groups of one job have when the job is registered any number
of times, nodes are registered and the worker makes its passes, each undisturbed. A plan does not
look at the instances that are there already. So `instances_le_count` asks of every pass that
takes an evaluation that its sums fit and that the room left is no more than the instances missing
(`RoomForMissing`), and `reregistered_job_overruns` registers a job twice.
-/

namespace NomadRs

/-- A request, handled without interruption. -/
def Shared.handle (self : Shared) (nanos : Nat) (now : Instant) (request : Request) : Shared :=
  let endpoint := (RpcEndpoint.handle ⟨self.queue, self.raft⟩ nanos now request).2
  { self with raft := endpoint.raft, queue := endpoint.evalQueue }

inductive JobEvent
  | jobRegister (nanos : Nat) (now : Instant)
  | nodeRegister (node : Node) (nanos : Nat) (now : Instant)
  | workerIteration (clock : EvalId → Instant) (now : Instant)
  | relayout

section Runs
variable (F : Type) [F64 F] [Crates]

def Shared.next (job : Job) (self : Shared) : JobEvent → Option Shared
  | .jobRegister nanos now => some (self.handle nanos now (.jobRegister job))
  | .nodeRegister node nanos now => some (self.handle nanos now (.nodeRegister node))
  | .workerIteration clock now => some (Release.workerIteration F clock now self).2
  | .relayout => none

/-- The events, and iteration orders that change between them. -/
inductive JobStep (job : Job) : Shared → JobEvent → Shared → Prop
  | next {sh sh' : Shared} {event : JobEvent} :
      sh.next F job event = some sh' → JobStep job sh event sh'
  | relayout (sh : Shared) (state : StateStore) (inFlight : HashMap EvalId PendingEval) :
      sh.raft.state.Relayout state → sh.queue.inFlight.Relayout inFlight →
      JobStep job sh .relayout { sh with
        raft := { sh.raft with fsm := ⟨state⟩ }
        queue := { sh.queue with inFlight } }

def jobSystem (job : Job) (nodeName : String) : System Shared JobEvent where
  start sh := sh = { raft := .bootstrap nodeName }
  step := JobStep F job

omit F [F64 F] in
/-- A pass takes an evaluation only when the sums of its plan fit, and each group has no live
instance yet or the nodes have room for no more instances than are missing. -/
def RoomForMissing (job : Job) (sh : Shared) : JobEvent → Prop
  | .workerIteration clock _ => (sh.queue.reapExpired clock visibility).2.heap ≠ [] →
      Release.SumsFit job sh.raft.state ∧
      ∀ group ∈ job.taskGroups, instances sh.raft.state job group = 0 ∨
        ∀ n, HasRoomFor sh.raft.state group n →
          (instances sh.raft.state job group + n : Int) ≤ group.count
  | _ => True

/-! ## The invariant -/

/-- Only the one job is stored, and no group of it runs more instances than it asks for. -/
structure WithinCount (job : Job) (s : StateStore) : Prop where
  wellFormed : s.WellFormed
  jobs : ∀ name stored, s.getJob name = some stored → stored = job
  counts : ∀ group ∈ job.taskGroups, (instances s job group : Int) ≤ group.count

variable {F} {job : Job} {s s' : StateStore} {sh sh' : Shared} {event : JobEvent}

omit [Crates] in
theorem WithinCount.new (hjob : job.validate = .ok ()) : WithinCount job .new where
  wellFormed := .new
  jobs := by simp [StateStore.new, StateStore.getJob]
  counts group hg := (TaskGroup.validate_ok ((Job.validate_ok hjob).2 group hg)).2.1

omit [Crates] in
theorem WithinCount.handle {raft : RaftNode} (h : WithinCount job raft.state) {request : Request}
    (hreq : request = .jobRegister job ∨ ∃ node, request = .nodeRegister node) :
    WithinCount job (request.begin raft).2.state := by
  rcases request.begin_raft raft with hraft | ⟨c, hc, hacc, hbegin⟩
  · rw [hraft]
    exact h
  · rw [hbegin]
    refine ⟨h.wellFormed.applied hacc, fun name stored hstored => ?_, fun group hg => ?_⟩
    · rcases hreq with rfl | ⟨node, rfl⟩ <;> cases hc
      · rcases HashMap.lookup_insert_eq_some.1 hstored with ⟨_, rfl⟩ | ⟨_, hold⟩
        · rfl
        · exact h.jobs name stored hold
      · exact h.jobs name stored hstored
    · rcases hreq with rfl | ⟨node, rfl⟩ <;> cases hc <;> exact h.counts group hg

theorem WithinCount.commitPlan {raft : RaftNode} (h : WithinCount job raft.state)
    (hnames : (job.taskGroups.map TaskGroup.name).Nodup) (eval : Evaluation)
    (hroom : ∀ group ∈ job.taskGroups, instances raft.state job group = 0 ∨
      ∀ n, HasRoomFor raft.state group n →
        (instances raft.state job group + n : Int) ≤ group.count) :
    WithinCount job (commitPlan raft (processEval F eval raft.state).allocs).2.state := by
  obtain ⟨done, rest, hsplit, hcommit, hval, _⟩ :=
    commitPlan_spec raft (processEval F eval raft.state).allocs
  rw [hcommit, RaftNode.state_commitAll]
  refine ⟨h.wellFormed.commitAll hval, fun name stored hstored => ?_, fun group hg => ?_⟩
  · rw [StateStore.getJob, StateStore.commitAll_jobs] at hstored
    exact h.jobs name stored hstored
  · have hle := instances_commitAll_le raft.state done job group
    have hdone : done.countP (instanceOf job group) ≤
        (processEval F eval raft.state).placed group.name := by
      rw [Plan.placed, hsplit, List.countP_append]
      refine le_trans (List.countP_mono_left fun a _ ha => ?_) (Nat.le_add_right _ _)
      simp only [instanceOf, Bool.and_eq_true] at ha
      exact ha.1.2
    cases hj : raft.state.getJob eval.jobId with
    | none =>
        have hempty : (processEval F eval raft.state).placed group.name = 0 := by
          rw [Plan.placed, processEval_of_no_job F hj]
          rfl
        have hold := h.counts group hg
        omega
    | some stored =>
        obtain rfl := h.jobs _ _ hj
        rcases hroom group hg with hzero | hroom
        · have hcount := placed_le_count F h.wellFormed hj hnames hg
          omega
        · have hcount := hroom _ (hasRoomFor_placed F h.wellFormed hj hnames hg)
          omega

theorem WithinCount.step (h : WithinCount job sh.raft.state)
    (hnames : (job.taskGroups.map TaskGroup.name).Nodup) (hguard : RoomForMissing job sh event)
    (hstep : JobStep F job sh event sh') : WithinCount job sh'.raft.state := by
  cases hstep with
  | next hnext =>
      cases event with
      | jobRegister nanos now =>
          cases hnext
          rw [Shared.handle, RpcEndpoint.handle_raft]
          exact h.handle (.inl rfl)
      | nodeRegister node nanos now =>
          cases hnext
          rw [Shared.handle, RpcEndpoint.handle_raft]
          exact h.handle (.inr ⟨node, rfl⟩)
      | workerIteration clock now =>
          cases hnext
          rcases Release.workerIteration_raft F clock now sh with hraft | ⟨htaken, eval, hraft⟩
          · rw [hraft]
            exact h
          · obtain ⟨hsums, hroom⟩ := hguard htaken
            rw [hraft, Release.processEval_eq F h.wellFormed fun stored hstored =>
              (h.jobs _ _ hstored).symm ▸ hsums]
            exact h.commitPlan hnames eval hroom
      | relayout => cases hnext
  | relayout state inFlight hstate _ =>
      refine ⟨h.wellFormed.relayout hstate, fun name stored hstored => ?_, fun group hg => ?_⟩
      · exact h.jobs name stored ((hstate.jobs.lookup_eq name).trans hstored)
      · change (instances state job group : Int) ≤ _
        rw [instances_eq_sumBy, ← hstate.allocs.sumBy_eq, ← instances_eq_sumBy]
        exact h.counts group hg

theorem exists_registered (job : Job) (nodeName : String) (events : List JobEvent)
    (p : Shared → Bool)
    (he : (System.exec (Shared.next F job) { raft := .bootstrap nodeName } events).any p = true) :
    ∃ sh, (jobSystem F job nodeName).Reachable sh ∧ p sh = true :=
  System.ReachableVia.exists_of_exec (fun _ _ _ h => ⟨trivial, JobStep.next h⟩) (.start rfl)
    events p he

/-- In a run whose passes meet no more room than instances are missing, no group ever runs more
instances than it asks for. -/
theorem instances_le_count {nodeName : String} (hjob : job.validate = .ok ())
    (hnames : (job.taskGroups.map TaskGroup.name).Nodup)
    (h : (jobSystem F job nodeName).ReachableVia (RoomForMissing job) sh) {group : TaskGroup}
    (hg : group ∈ job.taskGroups) : (instances sh.raft.state job group : Int) ≤ group.count := by
  have hinv : WithinCount job sh.raft.state := by
    refine h.invariant (fun sh => WithinCount job sh.raft.state) ?_
      fun _ _ _ hs hguard hstep => hs.step hnames hguard hstep
    rintro _ rfl
    exact .new hjob
  exact hinv.counts group hg

end Runs

/-! ## Runs on one node -/

section Runs
attribute [local instance] Crates.literal

/-- A node and a job are registered, and the worker makes a pass. -/
def placeOnce : List JobEvent :=
  [.nodeRegister oneNode 0 0, .jobRegister 0 0, .workerIteration (fun _ => 0) 0]

def placeAgain : List JobEvent := [.jobRegister 1 0, .workerIteration (fun _ => 0) 0]

def runs (job : Job) (n : ℕ) (sh : Shared) : Bool :=
  job.taskGroups.any fun group => instances sh.raft.state job group == n

/-- Steps that `RoomForMissing` allows: passes while nothing is live and the sums fit. -/
def freshNext (job : Job) (sh : Shared) (event : JobEvent) : Option Shared :=
  match event with
  | .workerIteration _ _ =>
    if Release.SumsFit job sh.raft.state ∧
      job.taskGroups.all fun group => instances sh.raft.state job group == 0
    then sh.next ℚ job event else none
  | _ => sh.next ℚ job event

theorem freshNext_roomForMissing {job : Job} {sh sh' : Shared} {event : JobEvent}
    (h : freshNext job sh event = some sh') :
    RoomForMissing job sh event ∧ JobStep ℚ job sh event sh' := by
  unfold freshNext at h
  split at h
  · rw [Option.ite_none_right_eq_some, List.all_eq_true] at h
    exact ⟨fun _ => ⟨h.1.1, fun group hg => .inl (by simpa using h.1.2 group hg)⟩, .next h.2⟩
  next hpass =>
    refine ⟨?_, .next h⟩
    cases event with
    | workerIteration clock now => exact absurd rfl (hpass clock now)
    | _ => trivial

theorem instances_le_count_web : ∃ sh : Shared, runs (webJob 1) 1 sh = true ∧
    ∀ group ∈ (webJob 1).taskGroups, (instances sh.raft.state (webJob 1) group : Int) ≤ 1 := by
  have hstart : (jobSystem ℚ (webJob 1) "server-1").ReachableVia (RoomForMissing (webJob 1))
      { raft := .bootstrap "server-1" } := .start rfl
  obtain ⟨sh, hsh, hruns⟩ := hstart.exists_of_exec (fun _ _ _ => freshNext_roomForMissing)
    placeOnce (runs (webJob 1) 1) (by decide)
  refine ⟨sh, hruns, fun group hg => ?_⟩
  have hle := instances_le_count (by decide) (by decide) hsh hg
  rw [List.mem_singleton.1 hg] at hle ⊢
  exact hle

/-- A job that asks for one instance runs two after its second registration. -/
theorem reregistered_job_overruns : (webJob 1).validate = .ok () ∧
    ((webJob 1).taskGroups.map TaskGroup.name).Nodup ∧
    ¬ ∀ sh, (jobSystem ℚ (webJob 1) "server-1").Reachable sh → ∀ group ∈ (webJob 1).taskGroups,
      (instances sh.raft.state (webJob 1) group : Int) ≤ group.count := by
  refine ⟨by decide, by decide, fun h => ?_⟩
  obtain ⟨sh, hsh, hruns⟩ := exists_registered (F := ℚ) (webJob 1) "server-1"
    (placeOnce ++ placeAgain) (runs (webJob 1) 2) (by decide)
  obtain ⟨group, hg, htwo⟩ := List.any_eq_true.1 hruns
  have hle := h sh hsh group hg
  rw [beq_iff_eq.1 htwo, List.mem_singleton.1 hg] at hle
  revert hle
  decide

end Runs
end NomadRs
