import NomadRs.Drain
import NomadRs.Ownership

/-!
# The allocations of a deregistered job

`JobDeregister` takes the job out of the store and enqueues an evaluation that is to stop its
allocations. The plan of an evaluation without a job is empty, so this evaluation changes nothing:
what was live stays live. `Deregistered` follows a run from the request to the acknowledgement of
its evaluation. Then no allocation of the job is left to run exactly if there was none before, and
no plan made for the job before was committed since (`deregister_stops_iff`).
-/

namespace NomadRs

/-- No allocation of the job is live and meant to run. -/
def Stopped (jobId : JobId) (s : StateStore) : Prop :=
  ∀ a ∈ s.listAllocs, a.jobId = jobId → ¬ a.Active

/-! ## One write -/

section Writes
variable {name : JobId} {s : StateStore}

theorem mem_listAllocs_upsert (hs : s.WellFormed) {a b : Allocation} :
    a ∈ (s.applied (.upsertAlloc b)).listAllocs ↔ a = b ∨ a ∈ s.listAllocs ∧ a.id ≠ b.id := by
  constructor
  · intro h
    obtain ⟨k, hk⟩ := HashMap.mem_values_iff.1 h
    rcases HashMap.lookup_insert_eq_some.1 hk with ⟨_, hab⟩ | ⟨hne, hk⟩
    · exact .inl hab.symm
    · obtain rfl := (hs.allocs k a hk).1
      exact .inr ⟨hs.mem_listAllocs_iff.2 hk, hne⟩
  · rintro (rfl | ⟨ha, hne⟩)
    · exact HashMap.mem_values_iff.2 ⟨_, AList.lookup_insert _⟩
    · exact HashMap.mem_values_iff.2 ⟨_, (AList.lookup_insert_ne hne).trans
        (hs.mem_listAllocs_iff.1 ha)⟩

theorem stopped_congr {s' : StateStore} (h : ∀ a, a ∈ s'.listAllocs ↔ a ∈ s.listAllocs) :
    Stopped name s' ↔ Stopped name s := by simp only [Stopped, h]

theorem stopped_place (hs : s.WellFormed) (hnamed : ∀ a ∈ s.listAllocs, a.Named) {b : Allocation}
    (hb : b.Placed) : Stopped name (s.applied (.upsertAlloc b)) ↔
      Stopped name s ∧ b.jobId ≠ name := by
  constructor
  · intro h
    have hne : b.jobId ≠ name := fun heq =>
      h b ((mem_listAllocs_upsert hs).2 (.inl rfl)) heq hb.active
    refine ⟨fun a ha hjob => ?_, hne⟩
    have hid : a.id ≠ b.id := fun hid =>
      hne (((hnamed a ha).jobId_eq hb.named hid).symm.trans hjob)
    exact h a ((mem_listAllocs_upsert hs).2 (.inr ⟨ha, hid⟩)) hjob
  · rintro ⟨h, hne⟩ a ha hjob
    rcases (mem_listAllocs_upsert hs).1 ha with rfl | ⟨ha, _⟩
    · exact absurd hjob hne
    · exact h a ha hjob

theorem stopped_commitAll (hs : s.WellFormed) (hnamed : ∀ a ∈ s.listAllocs, a.Named)
    {as : List Allocation} (has : ∀ a ∈ as, a.Placed) : Stopped name (s.commitAll as) ↔
      Stopped name s ∧ as.filter (·.jobId = name) = [] := by
  induction as generalizing s with
  | nil => simp
  | cons b as ih =>
      obtain ⟨hb, has⟩ := List.forall_mem_cons.1 has
      have hnamed' : ∀ a ∈ (s.applied (.upsertAlloc b)).listAllocs, a.Named := by
        intro a ha
        rcases (mem_listAllocs_upsert hs).1 ha with rfl | ⟨ha, _⟩
        · exact hb.named
        · exact hnamed a ha
      rw [StateStore.commitAll_cons, ih (hs.applied (c := .upsertAlloc b) hb.valid) hnamed' has,
        stopped_place hs hnamed hb]
      by_cases hjob : b.jobId = name <;> simp [hjob]

theorem stopped_report (hs : s.WellFormed) {old b : Allocation}
    (hold : s.getAlloc b.id = some old) (hjob : b.jobId = old.jobId)
    (hactive : b.jobId = name → (b.Active ↔ old.Active)) :
    Stopped name (s.applied (.upsertAlloc b)) ↔ Stopped name s := by
  have hmem : old ∈ s.listAllocs := HashMap.mem_values_iff.2 ⟨_, hold⟩
  constructor
  · intro h a ha hname
    by_cases hid : a.id = b.id
    · have hstored := hs.mem_listAllocs_iff.1 ha
      rw [hid, hold] at hstored
      cases hstored
      have hb := hjob.trans hname
      rw [← hactive hb]
      exact h b ((mem_listAllocs_upsert hs).2 (.inl rfl)) hb
    · exact h a ((mem_listAllocs_upsert hs).2 (.inr ⟨ha, hid⟩)) hname
  · intro h a ha hname
    rcases (mem_listAllocs_upsert hs).1 ha with rfl | ⟨ha, _⟩
    · rw [hactive hname]
      exact h old hmem (hjob.symm.trans hname)
    · exact h a ha hname

end Writes

/-! ## The run of a deregistration -/

/-- How far the evaluation that a deregistration is followed by has got. -/
inductive Cleanup
  | due
  | enqueued (evalId : EvalId)
  | acked

def Cleanup.next (name : String) (s : Server) : Cleanup → FleetEvent → Cleanup
  | .due, .server (.finish j nanos _) =>
    if s.requests[j]? = some (.deregistered name) then .enqueued (evalIdFor name nanos) else .due
  | .enqueued evalId, .server (.worker i _ _) =>
    match s.workers i with
    | .ack eval => if eval.id = evalId then .acked else .enqueued evalId
    | _ => .enqueued evalId
  | cleanup, _ => cleanup

namespace Server

/-- The allocations of the job that an event commits from a plan. -/
def placedBy (name : JobId) (s : Server) : FleetEvent → List Allocation
  | .server (.worker i _ _) =>
    match s.workers i with
    | .commit _ plan => plan.allocs.filter (·.jobId = name)
    | _ => []
  | _ => []

/-- Clients neither end nor revive allocations of the job. -/
def LeavesRunning (name : JobId) (s : Server) : FleetEvent → Prop
  | .report alloc => alloc.jobId = name → ∀ old, s.raft.state.getAlloc alloc.id = some old →
      (alloc.Active ↔ old.Active)
  | _ => True

end Server

section Runs
variable (F : Type) [F64 F] [Crates]

/-- What happens after the job `name` has been deregistered in the state `s₀` and before it is
registered again, with the allocations of the job that workers have committed since. -/
inductive Deregistered (nodeName : String) (name : String) (s₀ : Server) :
    Cleanup → List Allocation → Server → Prop
  | request : (fleetSystem F nodeName).Reachable s₀ →
      (Request.begin s₀.raft (.jobDeregister name)).1 = .ok (.inr (.deregistered name)) →
      Deregistered nodeName name s₀ .due [] (s₀.beginRequest (.jobDeregister name))
  | step {cleanup : Cleanup} {placed : List Allocation} {s s' : Server} {event : FleetEvent} :
      Deregistered nodeName name s₀ cleanup placed s → FleetStep F s event s' →
      s'.raft.state.getJob name = none → s.LeavesRunning name event →
      Deregistered nodeName name s₀ (cleanup.next name s event) (placed ++ s.placedBy name event) s'

variable {F} {nodeName name : String} {s s' s₀ : Server} {cleanup : Cleanup}
  {placed : List Allocation}

theorem stopped_work (h : s.Sound) (i : ℕ) (clock : EvalId → Instant) (now : Instant) :
    Stopped name (s.work F i clock now).raft.state ↔
      Stopped name s.raft.state ∧ s.placedBy name (.server (.worker i clock now)) = [] := by
  have hpc := h.workers i
  unfold Server.work
  split
  next habort => simp [Server.placedBy, habort.2]
  next _ =>
    simp only [Server.act, Server.placedBy]
    rcases WorkerPc.step_raft (F := F) clock now s.toShared (s.workers i) with
      ⟨eval, plan, hcommit, hraft⟩ | ⟨hne, hraft⟩
    · rw [hcommit] at hpc
      rw [hraft, commitPlan_of_valid h.shared.leader fun a ha => (hpc.2 a ha).valid, hcommit]
      exact stopped_commitAll h.shared.wellFormed h.shared.allocs hpc.2
    · rw [hraft]
      split
      next eval plan hcommit => exact absurd hcommit (hne eval plan)
      next _ => simp

/-- One event ends no allocation of the job, and adds those it commits. -/
theorem stopped_step (h : s.Sound) {event : FleetEvent} (hstep : FleetStep F s event s')
    (hleaves : s.LeavesRunning name event) : Stopped name s'.raft.state ↔
      Stopped name s.raft.state ∧ s.placedBy name event = [] := by
  have hsame (hraft : ∀ a, a ∈ s'.raft.state.listAllocs ↔ a ∈ s.raft.state.listAllocs)
      (hplaced : s.placedBy name event = []) : Stopped name s'.raft.state ↔
        Stopped name s.raft.state ∧ s.placedBy name event = [] := by
    rw [hplaced, stopped_congr hraft]
    simp
  cases hstep with
  | report old alloc hold hjob =>
      rcases s.raft.propose_cases (.upsertAlloc alloc) with ⟨_, _, hp⟩ | ⟨_, e, hp⟩
      · rw [hp]
        refine (stopped_report h.shared.wellFormed hold hjob fun hname => ?_).trans
          (by simp [Server.placedBy])
        exact hleaves hname old hold
      · exact hsame (fun a => by rw [hp]) rfl
  | @server _ event hstep =>
      rcases hstep with ⟨hnext⟩ | ⟨state, inFlight, hstate, _⟩
      · cases event with
        | run =>
            cases hnext
            exact hsame (fun a => by rw [Server.run_raft]) rfl
        | stop =>
            cases hnext
            exact hsame (fun _ => Iff.rfl) rfl
        | worker i clock now =>
            cases hnext
            exact stopped_work h i clock now
        | begin request =>
            cases hnext
            refine hsame (fun a => ?_) rfl
            rw [StateStore.listAllocs, StateStore.listAllocs]
            change a ∈ (request.begin s.raft).2.state.allocs.values ↔ _
            rw [request.allocs_begin]
        | finish j nanos now =>
            obtain ⟨followUp, _, rfl⟩ := Option.map_eq_some_iff.1 hnext
            exact hsame (fun _ => Iff.rfl) rfl
        | relayout => cases hnext
      · exact hsame (fun a => hstate.allocs.values_perm.symm.mem_iff) rfl

theorem processEval_ne_of_no_job {state : StateStore} (hs : state.WellFormed)
    (hj : state.getJob name = none) (eval : Evaluation) :
    ∀ a ∈ (processEval F eval state).allocs, a.jobId ≠ name := by
  intro a ha hname
  cases hjob : state.getJob eval.jobId with
  | none =>
      rw [processEval_of_no_job F hjob] at ha
      cases ha
  | some job =>
      obtain ⟨_, _, _, _, haJob, _⟩ := processEval_planned F hs hjob a ha
      have hkey : job.name = eval.jobId := (hs.jobs _ _ hjob).1
      rw [← hname, haJob, hkey, hjob] at hj
      cases hj

namespace Deregistered

theorem sound (h : Deregistered F nodeName name s₀ cleanup placed s) : s.Sound := by
  induction h with
  | request hreach _ =>
      have hbegin : Server.Step F s₀ (.begin (.jobDeregister name)) _ := .next rfl
      exact (Server.Sound.of_reachable hreach).step hbegin
  | step _ hstep _ _ ih => exact ih.fleetStep hstep

theorem getJob_eq_none (h : Deregistered F nodeName name s₀ cleanup placed s) :
    s.raft.state.getJob name = none := by
  cases h with
  | request hreach hbegin =>
      rcases Request.begin_cases s₀.raft (.jobDeregister name) with
        ⟨c, hc, _, heq⟩ | ⟨hc, _⟩ | ⟨hne, _⟩
      · cases hc
        change ((Request.begin s₀.raft (.jobDeregister name)).2.state.jobs.lookup name) = none
        rw [heq]
        exact AList.lookup_erase _ _
      · cases hc
      · exact absurd hbegin (hne _)
  | step _ _ hnone _ => exact hnone

theorem stopped_iff (h : Deregistered F nodeName name s₀ cleanup placed s) :
    Stopped name s.raft.state ↔ Stopped name s₀.raft.state ∧ placed = [] := by
  induction h with
  | request hreach _ =>
      have hstep : FleetStep F s₀ (.server (.begin (.jobDeregister name))) _ :=
        .server (.next rfl)
      exact (stopped_step (Server.Sound.of_reachable hreach) hstep trivial)
  | step hold hstep _ hleaves ih =>
      rw [stopped_step hold.sound hstep hleaves, ih, List.append_eq_nil_iff, and_assoc]

theorem held (h : Deregistered F nodeName name s₀ cleanup placed s) {i : ℕ} {eval : Evaluation}
    {plan : Plan} (hpc : s.workers i = .commit eval plan)
    (hname : ∃ a ∈ plan.allocs, a.jobId = name) : s₀.workers i = .commit eval plan := by
  induction h with
  | request => exact hpc
  | step hold hstep _ _ ih =>
      cases hstep with
      | report => exact ih hpc
      | server hstep =>
          rcases hstep with ⟨hnext⟩ | _
          · rcases Server.next_commit hnext hpc with ⟨hpc, _⟩ | ⟨_, hplan, _⟩
            · exact ih hpc
            · obtain ⟨a, ha, hjob⟩ := hname
              rw [hplan] at ha
              exact absurd hjob (processEval_ne_of_no_job hold.sound.shared.wellFormed
                hold.getJob_eq_none eval a ha)
          · exact ih hpc

theorem placed_eq_nil (h : Deregistered F nodeName name s₀ cleanup placed s)
    (hfree : ∀ i eval plan, s₀.workers i = .commit eval plan → ∀ a ∈ plan.allocs, a.jobId ≠ name) :
    placed = [] := by
  induction h with
  | request => rfl
  | @step _ placed s _ event hold _ _ _ ih =>
      rw [ih, List.nil_append]
      rcases event with (_ | _ | ⟨i, _, _⟩ | _ | _ | _) | _
      case server.worker =>
        simp only [Server.placedBy]
        split
        next eval plan hpc =>
          rw [List.filter_eq_nil_iff]
          intro a ha
          rw [decide_eq_true_eq]
          exact fun hjob => hfree i eval plan (hold.held hpc ⟨a, ha, hjob⟩) a ha hjob
        next _ => rfl
      all_goals rfl

end Deregistered

/-! ## A drain -/

theorem stopped_processAndApply {fsm : Fsm} {eval : Evaluation} (hs : fsm.state.WellFormed)
    (hnamed : ∀ a ∈ fsm.state.listAllocs, a.Named) (hj : fsm.state.getJob name = none)
    (he : eval.Named) :
    (processAndApply F eval fsm).2.state.WellFormed ∧
      (∀ a ∈ (processAndApply F eval fsm).2.state.listAllocs, a.Named) ∧
      (processAndApply F eval fsm).2.state.getJob name = none ∧
      (Stopped name (processAndApply F eval fsm).2.state ↔ Stopped name fsm.state) := by
  have hjobs := processAndApply_jobs F eval fsm
  obtain ⟨done, rest, hsplit, hst, hval, _⟩ :=
    applyPlan_spec fsm (processEval F eval fsm.state).allocs
  have hmem (a : Allocation) (ha : a ∈ done) : a ∈ (processEval F eval fsm.state).allocs := by
    rw [hsplit]
    exact List.mem_append_left _ ha
  have hplaced (a : Allocation) (ha : a ∈ done) : a.Placed :=
    processEval_placed F hs he a (hmem a ha)
  have hnone : done.filter (·.jobId = name) = [] := by
    rw [List.filter_eq_nil_iff]
    intro a ha
    rw [decide_eq_true_eq]
    exact processEval_ne_of_no_job hs hj eval a (hmem a ha)
  rw [StateStore.getJob, hjobs]
  rw [processAndApply_eq, hst]
  refine ⟨hs.commitAll hval, fun a ha => ?_, hj, ?_⟩
  · exact (StateStore.mem_listAllocs_commitAll ha).elim (fun h => (hplaced a h).named) (hnamed a)
  · rw [stopped_commitAll hs hnamed hplaced, hnone]
    simp

theorem stopped_drainLoop {clock : ℕ → Instant} {n : ℕ} {queue : EvalQueue} {fsm : Fsm}
    (hs : fsm.state.WellFormed) (hnamed : ∀ a ∈ fsm.state.listAllocs, a.Named)
    (hj : fsm.state.getJob name = none) (hqueue : queue.All Evaluation.Named) :
    Stopped name (drainLoop F clock n queue fsm).fsm.state ↔ Stopped name fsm.state := by
  fun_induction drainLoop F clock n queue fsm with
  | case1 n queue fsm queue' hdeq => exact Iff.rfl
  | case2 n queue fsm e queue' hdeq plan fsm' hproc parked rest ih =>
      obtain ⟨hqueue', he⟩ := hqueue.dequeue (clock queue.heap.length)
      rw [hdeq] at hqueue' he
      obtain ⟨hs', hnamed', hj', hiff⟩ := stopped_processAndApply (F := F) hs hnamed hj (he e rfl)
      rw [hproc] at hs' hnamed' hj' hiff
      rw [← hiff]
      refine ih hs' hnamed' hj' (EvalQueue.All.ack ?_ e.id)
      unfold parked
      split_ifs
      · exact hqueue'.block (he e rfl)
      · exact hqueue'
  | case3 n queue fsm e queue' hdeq err fsm' hproc =>
      obtain ⟨hqueue', he⟩ := hqueue.dequeue (clock queue.heap.length)
      rw [hdeq] at he
      obtain ⟨_, _, _, hiff⟩ := stopped_processAndApply (F := F) hs hnamed hj (he e rfl)
      rwa [hproc] at hiff

/-- When the evaluation of a deregistration has been acknowledged, no allocation of the job is left
to run exactly if there was none before and no plan for the job was committed late; and none is
committed late if no worker was about to commit one. Draining the queue instead changes nothing. -/
theorem deregister_stops_iff :
    (Deregistered F nodeName name s₀ .acked placed s →
      (Stopped name s.raft.state ↔ Stopped name s₀.raft.state ∧ placed = []) ∧
      ((∀ i eval plan, s₀.workers i = .commit eval plan → ∀ a ∈ plan.allocs, a.jobId ≠ name) →
        placed = [])) ∧
    ∀ evalId clock, Deregistered F nodeName name s₀ (.enqueued evalId) placed s →
      (∃ plan eval, (eval, plan) ∈ (drainQueue F clock s.queue s.raft.fsm).acked ∧
        eval.id = evalId) →
      (Stopped name (drainQueue F clock s.queue s.raft.fsm).fsm.state ↔
        Stopped name s₀.raft.state ∧ placed = []) := by
  refine ⟨fun h => ⟨h.stopped_iff, h.placed_eq_nil⟩, fun evalId clock h _ => ?_⟩
  rw [← h.stopped_iff]
  have hsound := h.sound.shared
  exact stopped_drainLoop hsound.wellFormed hsound.allocs h.getJob_eq_none hsound.queue

end Runs

/-! ## A job with one allocation -/

section Sample
attribute [local instance] Crates.literal

/-- A node and a job are registered, and worker 0 places the job's only instance. -/
def toPlace : List ServerEvent :=
  [.run, .begin (.nodeRegister oneNode), .finish 0 0 0, .begin (.jobRegister (webJob 1)),
    .finish 0 0 0] ++ List.replicate 9 (.worker 0 (fun _ => 0) 0)

def toCleanUp : List ServerEvent := .finish 0 1 0 :: List.replicate 8 (.worker 0 (fun _ => 0) 0)

structure Watch where
  cleanup : Cleanup := .due
  placed : List Allocation := []
  server : Server

def Watch.next (name : String) (w : Watch) (event : ServerEvent) : Option Watch :=
  (w.server.next ℚ event).bind fun server =>
    if (server.raft.state.getJob name).isNone then
      some { cleanup := w.cleanup.next name w.server (.server event)
             placed := w.placed ++ w.server.placedBy name (.server event), server }
    else none

theorem Deregistered.exec {nodeName name : String} {s₀ : Server} {events : List ServerEvent}
    {w w' : Watch} (h : Deregistered ℚ nodeName name s₀ w.cleanup w.placed w.server)
    (he : System.exec (Watch.next name) w events = some w') :
    Deregistered ℚ nodeName name s₀ w'.cleanup w'.placed w'.server := by
  induction events generalizing w with
  | nil =>
      cases he
      exact h
  | cons event events ih =>
      obtain ⟨w₁, hnext, he⟩ := Option.bind_eq_some_iff.1 he
      refine ih ?_ he
      obtain ⟨server, hserver, hw₁⟩ := Option.bind_eq_some_iff.1 hnext
      split_ifs at hw₁ with hnone
      cases hw₁
      exact .step h (.server (.next hserver)) (Option.isNone_iff_eq_none.1 hnone) trivial

/-- The only worker is between two passes, the request succeeds, and `p` holds of what follows. -/
def deregisterWeb (events : List ServerEvent) (p : Watch → Bool) (s : Server) : Bool :=
  s.spawned == 1 && s.workers 0 == .top &&
  (match (Request.begin s.raft (.jobDeregister "web")).1 with
    | .ok (.inr followUp) => followUp == .deregistered "web"
    | _ => false) &&
  (System.exec (Watch.next "web") { server := s.beginRequest (.jobDeregister "web") } events).any p

theorem exists_deregistered (events : List ServerEvent) (p : Watch → Bool)
    (he : (System.exec (Server.next ℚ) (.new "server-1") toPlace).any
      (deregisterWeb events p) = true) :
    ∃ s₀ w, Deregistered ℚ "server-1" "web" s₀ w.cleanup w.placed w.server ∧ p w = true ∧
      ∀ i eval plan, s₀.workers i ≠ .commit eval plan := by
  obtain ⟨s₀, hreach, hp⟩ := Server.exists_reachable "server-1" toPlace _ he
  simp only [deregisterWeb, Bool.and_eq_true, beq_iff_eq] at hp
  obtain ⟨⟨⟨hspawned, htop⟩, hbegin⟩, hp⟩ := hp
  obtain ⟨w, hw, hpw⟩ := (Option.any_eq_true _ _).1 hp
  have hok : (Request.begin s₀.raft (.jobDeregister "web")).1 =
      .ok (.inr (.deregistered "web")) := by
    split at hbegin
    next heq =>
      rw [heq, beq_iff_eq.1 hbegin]
    next => cases hbegin
  have hstart := Deregistered.request (Server.fleet_reachable hreach) hok
  refine ⟨s₀, w, Deregistered.exec hstart hw, hpw, fun i eval plan hpc => ?_⟩
  rcases Nat.eq_zero_or_pos i with rfl | hi
  · rw [htop] at hpc
    cases hpc
  · rw [Server.workers_eq_done hreach i (hspawned.le.trans hi)] at hpc
    cases hpc

def Cleanup.isAcked : Cleanup → Bool
  | .acked => true
  | _ => false

theorem Cleanup.eq_acked {cleanup : Cleanup} (h : cleanup.isAcked = true) : cleanup = .acked := by
  cases cleanup <;> cases h
  rfl

theorem exists_cleanedUp : ∃ s₀ placed s, Deregistered ℚ "server-1" "web" s₀ .acked placed s ∧
    (∃ a ∈ s.raft.state.listAllocs, a.jobId = "web" ∧ a.Active) ∧
    ∀ i eval plan, s₀.workers i ≠ .commit eval plan := by
  obtain ⟨s₀, w, hw, hp, hfree⟩ := exists_deregistered toCleanUp (fun w => w.cleanup.isAcked &&
    w.server.raft.state.listAllocs.any fun a => a.jobId == "web" && decide a.Active) (by decide)
  rw [Bool.and_eq_true, List.any_eq_true] at hp
  obtain ⟨hacked, a, ha, hactive⟩ := hp
  rw [Bool.and_eq_true, beq_iff_eq, decide_eq_true_eq] at hactive
  rw [Cleanup.eq_acked hacked] at hw
  exact ⟨s₀, _, _, hw, ⟨a, ha, hactive⟩, hfree⟩

/-- The allocation was live at the request and still is, after the acknowledgement or a drain. -/
theorem deregister_stops_iff_web :
    (∃ s₀ placed s, Deregistered ℚ "server-1" "web" s₀ .acked placed s ∧ placed = [] ∧
      ¬ Stopped "web" s₀.raft.state ∧ ¬ Stopped "web" s.raft.state) ∧
    ∃ s₀ s, Deregistered ℚ "server-1" "web" s₀ (.enqueued (evalIdFor "web" 1)) [] s ∧
      ¬ Stopped "web" s₀.raft.state ∧
      ¬ Stopped "web" (drainQueue ℚ (fun _ => 0) s.queue s.raft.fsm).fsm.state := by
  constructor
  · obtain ⟨s₀, placed, s, h, ⟨a, ha, hjob, hactive⟩, hfree⟩ := exists_cleanedUp
    obtain ⟨hiff, hplaced⟩ := deregister_stops_iff.1 h
    have hnone := hplaced fun i eval plan hpc => absurd hpc (hfree i eval plan)
    have hlive : ¬ Stopped "web" s.raft.state := fun hstopped => hstopped a ha hjob hactive
    exact ⟨s₀, placed, s, h, hnone, fun hs => hlive (hiff.2 ⟨hs, hnone⟩), hlive⟩
  · obtain ⟨s₀, w, hw, hp, _⟩ := exists_deregistered [.finish 0 1 0] (fun w =>
      (match w.cleanup with | .enqueued evalId => evalId == evalIdFor "web" 1 | _ => false) &&
      w.placed.isEmpty &&
      let drained := drainQueue ℚ (fun _ => 0) w.server.queue w.server.raft.fsm
      (drained.acked.any fun e => e.1.id == evalIdFor "web" 1) &&
        drained.fsm.state.listAllocs.any fun a => a.jobId == "web" && decide a.Active)
      (by decide +kernel)
    simp only [Bool.and_eq_true, List.any_eq_true, List.isEmpty_iff, beq_iff_eq,
      decide_eq_true_eq] at hp
    obtain ⟨⟨hcleanup, hplaced⟩, ⟨⟨eval, plan⟩, hacked, hid⟩, a, ha, hjob, hactive⟩ := hp
    split at hcleanup
    next evalId heq =>
      rw [heq, beq_iff_eq.1 hcleanup, hplaced] at hw
      have hiff := deregister_stops_iff.2 _ _ hw ⟨plan, eval, hacked, hid⟩
      have hlive : ¬ Stopped "web" (drainQueue ℚ (fun _ => 0) w.server.queue
        w.server.raft.fsm).fsm.state := fun hstopped => hstopped a ha hjob hactive
      exact ⟨s₀, w.server, hw, fun hs => hlive (hiff.2 ⟨hs, rfl⟩), hlive⟩
    next => cases hcleanup

/-- The instance goes on running when its job is gone and the evaluation acknowledged. -/
theorem allocation_survives : ¬ ∀ s₀ placed s,
    Deregistered ℚ "server-1" "web" s₀ .acked placed s → Stopped "web" s.raft.state := by
  intro h
  obtain ⟨s₀, placed, s, hs, ⟨a, ha, hjob, hactive⟩, _⟩ := exists_cleanedUp
  exact h s₀ placed s hs a ha hjob hactive

end Sample
end NomadRs
