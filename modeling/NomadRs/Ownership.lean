import NomadRs.NumberedName
import NomadRs.Server

/-!
# Which job an allocation belongs to

The id of an evaluation names its job, and the id of an allocation the evaluation it was placed
by, so allocations with one id belong to one job (`Allocation.Named.jobId_eq`). `Server.Sound`
collects this with what else holds of every evaluation and plan a server has in hand, in every
run of a server whose allocations clients report on.
-/

open NumberedName

namespace NomadRs

/-! ## Numbered names -/

theorem evalIdFor_jobName_eq {jobName other : String} {n m : ℕ}
    (h : evalIdFor jobName n = evalIdFor other m) : jobName = other := by
  have hstem : s!"eval-{jobName}" = s!"eval-{other}" := by
    refine stem_eq (n := n) (m := m) ?_
    simpa [evalIdFor, toString] using h
  simpa [toString] using hstem

def Evaluation.Named (e : Evaluation) : Prop := ∃ nanos, e.id = evalIdFor e.jobId nanos

def Allocation.Named (a : Allocation) : Prop :=
  ∃ nanos i : ℕ, a.id = s!"{evalIdFor a.jobId nanos}-{i}"

theorem Allocation.Named.jobId_eq {a b : Allocation} (ha : a.Named) (hb : b.Named)
    (h : a.id = b.id) : a.jobId = b.jobId := by
  obtain ⟨n, i, ha⟩ := ha
  obtain ⟨m, j, hb⟩ := hb
  exact evalIdFor_jobName_eq (stem_eq (ha.symm.trans (h.trans hb)))

/-! ## The evaluations in a queue -/

namespace EvalQueue

/-- Every evaluation a queue holds has a property. -/
structure All (P : Evaluation → Prop) (q : EvalQueue) : Prop where
  heap : ∀ pe ∈ q.heap, P pe.eval
  inFlight : ∀ id pe, q.inFlight.lookup id = some pe → P pe.eval
  blocked : ∀ e ∈ q.blocked, P e

variable {P : Evaluation → Prop} {q : EvalQueue}

theorem All.new : All P .new := ⟨by simp [EvalQueue.new], by simp [EvalQueue.new],
  by simp [EvalQueue.new]⟩

theorem All.push (h : All P q) {e : Evaluation} (he : P e) (n : ℕ) : All P (q.push e n) :=
  { h with heap := List.forall_mem_cons.2 ⟨he, h.heap⟩ }

theorem All.ack (h : All P q) (id : EvalId) : All P (q.ack id) :=
  { h with inFlight := fun k pe hk => h.inFlight k pe (HashMap.lookup_erase_eq_some.1 hk).2 }

theorem All.nack (h : All P q) (id : EvalId) : All P (q.nack id) := by
  cases hpe : q.inFlight.lookup id with
  | none => rwa [nack_of_lookup_none hpe]
  | some pe =>
      rw [nack_of_lookup_some hpe]
      split_ifs
      · exact (h.ack id).push (h.inFlight id pe hpe) _
      · exact h.ack id

theorem All.foldl_nack (ids : List EvalId) (h : All P q) : All P (ids.foldl EvalQueue.nack q) := by
  induction ids generalizing q with
  | nil => exact h
  | cons id ids ih => exact ih (h.nack id)

theorem All.block (h : All P q) {e : Evaluation} (he : P e) : All P (q.block e) :=
  { h with blocked := List.forall_mem_append.2 ⟨h.blocked, List.forall_mem_singleton.2 he⟩ }

theorem All.unblockAll (h : All P q) : All P q.unblockAll.2 := by
  obtain ⟨pes, hfold, hmap, _⟩ := foldl_push q.blocked { q with blocked := [] }
  rw [EvalQueue.unblockAll, hfold]
  refine ⟨List.forall_mem_append.2 ⟨fun pe hpe => h.blocked _ ?_, h.heap⟩, h.inFlight, by simp⟩
  rw [← hmap]
  exact List.mem_map_of_mem (List.mem_reverse.2 hpe)

theorem All.dequeue (h : All P q) (now : Instant) :
    All P (q.dequeue now).2 ∧ ∀ e, (q.dequeue now).1 = some e → P e := by
  rcases q.dequeue_cases now with ⟨_, hq⟩ | ⟨pe, heap, hpop, hq⟩
  · rw [hq]
    exact ⟨h, by simp⟩
  · rw [hq]
    have hperm : q.heap.Perm (pe :: heap) := popGreatest_perm hpop
    have hpe : P pe.eval := h.heap pe (hperm.mem_iff.2 List.mem_cons_self)
    refine ⟨⟨fun pe' hpe' => ?_, fun id pe' hpe' => ?_, h.blocked⟩, ?_⟩
    · exact h.heap pe' (hperm.mem_iff.2 (List.mem_cons_of_mem _ hpe'))
    · rcases HashMap.lookup_insert_eq_some.1 hpe' with ⟨_, rfl⟩ | ⟨_, hpe'⟩
      · exact hpe
      · exact h.inFlight id pe' hpe'
    · rintro e he
      cases he
      exact hpe

theorem All.relayout (h : All P q) {m : HashMap EvalId PendingEval} (hm : q.inFlight.Relayout m) :
    All P { q with inFlight := m } :=
  { h with inFlight := fun id pe hpe => h.inFlight id pe (by rwa [hm.lookup_eq]) }

end EvalQueue

/-! ## What a server has in hand -/

def Allocation.Active (a : Allocation) : Prop :=
  isLive a.clientStatus = true ∧ a.desiredStatus = .run

instance (a : Allocation) : Decidable a.Active := inferInstanceAs (Decidable (_ ∧ _))

/-- An allocation as a plan has it. -/
structure Allocation.Placed (a : Allocation) : Prop where
  named : a.Named
  active : a.Active
  valid : a.validate = .ok ()

structure Shared.Sound (sh : Shared) : Prop where
  wellFormed : sh.raft.state.WellFormed
  leader : sh.raft.isLeader = true
  allocs : ∀ a ∈ sh.raft.state.listAllocs, a.Named
  queue : sh.queue.All Evaluation.Named

def WorkerPc.Sound : WorkerPc → Prop
  | .plan eval | .decide eval _ | .block eval | .ack eval | .nack eval => eval.Named
  | .commit eval p => eval.Named ∧ ∀ a ∈ p.allocs, a.Placed
  | _ => True

structure Server.Sound (s : Server) : Prop where
  shared : s.toShared.Sound
  workers : ∀ i, (s.workers i).Sound

theorem Server.Sound.new (nodeName : String) : (Server.new nodeName).Sound where
  shared := ⟨.new, rfl, by simp, .new⟩
  workers _ := trivial

section Plans
variable (F : Type) [F64 F] [Crates] {s : StateStore} {eval : Evaluation}

theorem processEval_placed (hs : s.WellFormed) (he : eval.Named) :
    ∀ a ∈ (processEval F eval s).allocs, a.Placed := by
  cases hj : s.getJob eval.jobId with
  | none => simp [processEval_of_no_job F hj]
  | some job =>
      intro a ha
      obtain ⟨_, _, _, _, hjob, hclient, hdesired, _, i, hid⟩ := processEval_planned F hs hj a ha
      obtain ⟨nanos, heval⟩ := he
      refine ⟨⟨nanos, i, ?_⟩, ⟨by rw [hclient]; rfl, hdesired⟩, processEval_valid F hs a ha⟩
      rw [hid, heval, hjob, (hs.jobs _ _ hj).1]

end Plans

theorem Shared.Sound.commitAll {sh : Shared} (h : sh.Sound) {as : List Allocation}
    (has : ∀ a ∈ as, a.Placed) : Shared.Sound { sh with raft := sh.raft.commitAll as } where
  wellFormed := h.wellFormed.commitAll fun a ha => (has a ha).valid
  leader := h.leader
  allocs a ha := by
    rcases StateStore.mem_listAllocs_commitAll ha with ha | ha
    · exact (has a ha).named
    · exact h.allocs a ha
  queue := h.queue

theorem Request.allocs_applied {request : Request} {c : Command} (h : request.command = some c)
    (s : StateStore) : (s.applied c).allocs = s.allocs := by
  cases request <;> cases h <;> rfl

theorem Request.allocs_begin (raft : RaftNode) (request : Request) :
    (request.begin raft).2.state.allocs = raft.state.allocs := by
  rcases request.begin_raft raft with hraft | ⟨c, hc, _, hbegin⟩
  · rw [hraft]
  · rw [hbegin]
    exact Request.allocs_applied hc raft.state

theorem Shared.Sound.begin {sh : Shared} (h : sh.Sound) (request : Request) :
    Shared.Sound { sh with raft := (request.begin sh.raft).2 } := by
  have hallocs := request.allocs_begin sh.raft
  rcases request.begin_raft sh.raft with hraft | ⟨c, hc, hacc, hbegin⟩
  · rw [hraft]
    exact h
  · rw [hbegin] at hallocs ⊢
    refine ⟨h.wellFormed.applied hacc, h.leader, fun a ha => h.allocs a ?_, h.queue⟩
    rwa [StateStore.listAllocs, ← hallocs]

theorem Shared.Sound.followUp {sh : Shared} (h : sh.Sound) (followUp : FollowUp) (nanos : Nat)
    (now : Instant) : Shared.Sound { sh with queue := (followUp.run sh.queue nanos now).2 } := by
  refine { h with queue := ?_ }
  cases followUp with
  | registered name priority => exact h.queue.push ⟨nanos, rfl⟩ 0
  | deregistered name => exact h.queue.push ⟨nanos, rfl⟩ 0
  | unblock => exact h.queue.unblockAll
  | dequeue => exact (h.queue.dequeue now).1

section Steps
variable (F : Type) [F64 F] [Crates]

theorem WorkerPc.Sound.step (clock : EvalId → Instant) (now : Instant) {pc : WorkerPc}
    {sh : Shared} (hpc : pc.Sound) (h : sh.Sound) :
    (pc.step F clock now sh).1.Sound ∧ (pc.step F clock now sh).2.Sound := by
  cases pc with
  | idle => exact ⟨trivial, h⟩
  | top =>
      simp only [WorkerPc.step]
      split <;> exact ⟨trivial, h⟩
  | gate =>
      simp only [WorkerPc.step]
      split <;> exact ⟨trivial, h⟩
  | reap => exact ⟨trivial, { h with queue := h.queue.foldl_nack _ }⟩
  | dequeue =>
      obtain ⟨hqueue, heval⟩ := h.queue.dequeue now
      simp only [WorkerPc.step]
      rcases hdeq : sh.queue.dequeue now with ⟨_ | eval, queue⟩ <;> rw [hdeq] at hqueue heval
      · exact ⟨trivial, { h with queue := hqueue }⟩
      · exact ⟨heval eval rfl, { h with queue := hqueue }⟩
  | plan eval => exact ⟨⟨hpc, processEval_placed F h.wellFormed hpc⟩, h⟩
  | commit eval plan =>
      simp only [WorkerPc.step]
      rw [commitPlan_of_valid h.leader fun a ha => (hpc.2 a ha).valid]
      exact ⟨hpc.1, h.commitAll hpc.2⟩
  | decide eval plan =>
      simp only [WorkerPc.step]
      split <;> exact ⟨hpc, h⟩
  | block eval => exact ⟨hpc, { h with queue := h.queue.block hpc }⟩
  | ack eval => exact ⟨trivial, { h with queue := h.queue.ack _ }⟩
  | nack eval => exact ⟨trivial, { h with queue := h.queue.nack _ }⟩
  | done => exact ⟨trivial, h⟩

end Steps

/-! ## Clients that report -/

inductive FleetEvent
  | server (event : ServerEvent)
  | report (alloc : Allocation)

section Runs
variable (F : Type) [F64 F] [Crates]

/-- The server, and clients that write back allocations of theirs. -/
inductive FleetStep : Server → FleetEvent → Server → Prop
  | server {s s' : Server} {event : ServerEvent} :
      s.Step F event s' → FleetStep s (.server event) s'
  | report (s : Server) (old alloc : Allocation) :
      s.raft.state.getAlloc alloc.id = some old → alloc.jobId = old.jobId →
      FleetStep s (.report alloc) { s with raft := (s.raft.propose (.upsertAlloc alloc)).2 }

def fleetSystem (nodeName : String) : System Server FleetEvent where
  start s := s = .new nodeName
  step := FleetStep F

variable {F} {s s' : Server}

omit [Crates] in
theorem Server.Sound.workers_update (h : s.Sound) (i : ℕ) {pc : WorkerPc} (hpc : pc.Sound) :
    ∀ j, (Function.update s.workers i pc j).Sound := by
  intro j
  by_cases hj : j = i
  · rw [hj, Function.update_self]
    exact hpc
  · rw [Function.update_of_ne hj]
    exact h.workers j

theorem Server.Sound.step (h : s.Sound) {event : ServerEvent} (hstep : s.Step F event s') :
    s'.Sound := by
  rcases hstep with ⟨hnext⟩ | ⟨state, inFlight, hstate, hflight⟩
  · cases event with
    | run =>
        cases hnext
        unfold Server.run
        split
        · exact h
        · exact ⟨{ h.shared with }, h.workers_update _ trivial⟩
    | stop =>
        cases hnext
        exact ⟨{ h.shared with }, h.workers⟩
    | worker i clock now =>
        cases hnext
        unfold Server.work
        split
        · exact ⟨h.shared, h.workers_update _ trivial⟩
        · obtain ⟨hpc, hsh⟩ := (h.workers i).step F clock now h.shared
          exact ⟨hsh, h.workers_update _ hpc⟩
    | begin request =>
        cases hnext
        exact ⟨h.shared.begin request, h.workers⟩
    | finish j nanos now =>
        obtain ⟨followUp, _, rfl⟩ := Option.map_eq_some_iff.1 hnext
        exact ⟨h.shared.followUp followUp nanos now, h.workers⟩
    | relayout => cases hnext
  · refine ⟨⟨h.shared.wellFormed.relayout hstate, h.shared.leader, fun a ha => ?_,
      h.shared.queue.relayout hflight⟩, h.workers⟩
    exact h.shared.allocs a (hstate.allocs.values_perm.mem_iff.2 ha)

theorem Server.Sound.fleetStep (h : s.Sound) {event : FleetEvent} (hstep : FleetStep F s event s') :
    s'.Sound := by
  cases hstep with
  | server hstep => exact h.step hstep
  | report old alloc hold hjob =>
      refine ⟨?_, h.workers⟩
      rcases s.raft.propose_cases (.upsertAlloc alloc) with ⟨_, hacc, hp⟩ | ⟨_, e, hp⟩
      · rw [hp]
        refine ⟨h.shared.wellFormed.applied hacc, h.shared.leader, ?_, h.shared.queue⟩
        intro a ha
        rcases HashMap.mem_values_insert ha with rfl | ha
        · have hmem : old ∈ s.raft.state.listAllocs := HashMap.mem_values_iff.2 ⟨_, hold⟩
          obtain ⟨nanos, i, hid⟩ := h.shared.allocs old hmem
          rw [(h.shared.wellFormed.allocs _ _ hold).1, ← hjob] at hid
          exact ⟨nanos, i, hid⟩
        · exact h.shared.allocs a ha
      · rw [hp]
        exact h.shared

theorem Server.Sound.of_reachable {nodeName : String}
    (h : (fleetSystem F nodeName).Reachable s) : s.Sound :=
  h.invariant Server.Sound (by rintro _ rfl; exact .new nodeName)
    fun _ _ _ hs _ hstep => hs.fleetStep hstep

theorem Server.fleet_reachable {nodeName : String} (h : (Server.system F nodeName).Reachable s) :
    (fleetSystem F nodeName).Reachable s := by
  induction h with
  | start hs => exact .start hs
  | step _ _ hs ih => exact ih.next (.server hs)

end Runs
end NomadRs
