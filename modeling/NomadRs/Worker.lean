import NomadRs.Rpc
import NomadRs.Usage

/-!
# The scheduler worker

`workerIteration` is one pass through the loop of `scheduler_worker`. Each of its actions takes a
lock of its own, so other threads may act in between: `WorkerPc.step` is the same pass cut into
those atomic actions, with the program counter carrying what the worker remembers. Undisturbed, the
actions make up the pass (`workerIteration_eq_steps`).
-/

namespace NomadRs

/-- What workers and request handlers share. -/
structure Shared where
  raft : RaftNode
  queue : EvalQueue := .new
  shutdown : Bool := false

def visibility : Duration := 60 * 10 ^ 9

/-- The proposals of one plan, under one lock. -/
def commitPlan (raft : RaftNode) : List Allocation → Result Unit × RaftNode
  | [] => (.ok (), raft)
  | a :: allocs =>
    match raft.propose (.upsertAlloc a) with
    | (.error e, raft') => (.error e, raft')
    | (.ok _, raft') => commitPlan raft' allocs

/-- How a pass through the loop ended. -/
inductive Pass
  | stopped
  | idle
  | acked (eval : Evaluation) (plan : Plan)
  | nacked (eval : Evaluation)
  deriving DecidableEq

section Loop
variable (F : Type) [F64 F] [Crates]

def parks (eval : Evaluation) (plan : Plan) (state : StateStore) : Bool :=
  plan.allocs.isEmpty && desiredCount eval state > 0

def workerIteration (clock : EvalId → Instant) (now : Instant) (sh : Shared) : Pass × Shared :=
  if sh.shutdown then (.stopped, sh)
  else if !sh.raft.isLeader then (.idle, sh)
  else
    match (sh.queue.reapExpired clock visibility).2.dequeue now with
    | (none, queue) => (.idle, { sh with queue })
    | (some eval, queue) =>
      let plan := processEval F eval sh.raft.state
      match commitPlan sh.raft plan.allocs with
      | (.ok _, raft) =>
        let queue := if parks eval plan raft.state then queue.block eval else queue
        (.acked eval plan, { sh with raft, queue := queue.ack eval.id })
      | (.error _, raft) => (.nacked eval, { sh with raft, queue := queue.nack eval.id })

/-- A pass takes an evaluation and ends by acknowledging it or giving it back, or it takes none and
leaves the raft node alone. -/
theorem workerIteration_cases (clock : EvalId → Instant) (now : Instant) (sh : Shared) :
    ((workerIteration F clock now sh).2.raft = sh.raft ∧
      ∀ eval plan, (workerIteration F clock now sh).1 ≠ .acked eval plan) ∨
    ∃ eval queue, (sh.queue.reapExpired clock visibility).2.dequeue now = (some eval, queue) ∧
      ((∃ raft, commitPlan sh.raft (processEval F eval sh.raft.state).allocs = (.ok (), raft) ∧
          workerIteration F clock now sh = (.acked eval (processEval F eval sh.raft.state),
            { sh with
              raft
              queue := (if parks eval (processEval F eval sh.raft.state) raft.state
                then queue.block eval else queue).ack eval.id })) ∨
        ∃ e raft, commitPlan sh.raft (processEval F eval sh.raft.state).allocs =
            (.error e, raft) ∧
          workerIteration F clock now sh =
            (.nacked eval, { sh with raft, queue := queue.nack eval.id })) := by
  unfold workerIteration
  split
  · exact .inl ⟨rfl, by simp⟩
  split
  · exact .inl ⟨rfl, by simp⟩
  split
  · exact .inl ⟨rfl, by simp⟩
  next eval queue hdeq =>
    refine .inr ⟨eval, queue, hdeq, ?_⟩
    rcases hcom : commitPlan sh.raft (processEval F eval sh.raft.state).allocs with ⟨e | _, raft⟩
    · exact .inr ⟨e, raft, rfl, by simp only [hcom]⟩
    · exact .inl ⟨raft, rfl, by simp only [hcom]⟩

theorem workerIteration_raft (clock : EvalId → Instant) (now : Instant) (sh : Shared) :
    (workerIteration F clock now sh).2.raft = sh.raft ∨
    ((sh.queue.reapExpired clock visibility).2.heap ≠ [] ∧ ∃ eval,
      (workerIteration F clock now sh).2.raft =
        (commitPlan sh.raft (processEval F eval sh.raft.state).allocs).2) := by
  rcases workerIteration_cases F clock now sh with ⟨hraft, _⟩ | ⟨eval, queue, hdeq, hend⟩
  · exact .inl hraft
  · refine .inr ⟨fun hempty => ?_, eval, ?_⟩
    · rcases (sh.queue.reapExpired clock visibility).2.dequeue_cases now with
        ⟨_, hnone⟩ | ⟨pe, heap, hpop, _⟩
      · rw [hnone] at hdeq
        cases hdeq
      · rw [popGreatest_eq_none.2 hempty] at hpop
        cases hpop
    · rcases hend with ⟨raft, hcom, hpass⟩ | ⟨e, raft, hcom, hpass⟩ <;> rw [hpass, hcom]

/-! ## The pass in atomic actions -/

/-- The next action of a worker; `idle` is an await, at which an aborted task ends. -/
inductive WorkerPc
  | idle | top | gate | reap | dequeue
  | plan (eval : Evaluation)
  | commit (eval : Evaluation) (plan : Plan)
  | decide (eval : Evaluation) (plan : Plan)
  | block (eval : Evaluation)
  | ack (eval : Evaluation)
  | nack (eval : Evaluation)
  | done
  deriving DecidableEq

def WorkerPc.step (clock : EvalId → Instant) (now : Instant) (sh : Shared) :
    WorkerPc → WorkerPc × Shared
  | .idle => (.top, sh)
  | .top => (if sh.shutdown then .done else .gate, sh)
  | .gate => (if sh.raft.isLeader then .reap else .idle, sh)
  | .reap => (.dequeue, { sh with queue := (sh.queue.reapExpired clock visibility).2 })
  | .dequeue =>
    match sh.queue.dequeue now with
    | (none, queue) => (.idle, { sh with queue })
    | (some eval, queue) => (.plan eval, { sh with queue })
  | .plan eval => (.commit eval (processEval F eval sh.raft.state), sh)
  | .commit eval p =>
    match commitPlan sh.raft p.allocs with
    | (.ok _, raft) => (.decide eval p, { sh with raft })
    | (.error _, raft) => (.nack eval, { sh with raft })
  | .decide eval p => (if parks eval p sh.raft.state then .block eval else .ack eval, sh)
  | .block eval => (.ack eval, { sh with queue := sh.queue.block eval })
  | .ack eval => (.top, { sh with queue := sh.queue.ack eval.id })
  | .nack eval => (.top, { sh with queue := sh.queue.nack eval.id })
  | .done => (.done, sh)

def WorkerPc.Resting : WorkerPc → Prop
  | .idle | .top | .done => True
  | _ => False

def WorkerPc.Unburdened : WorkerPc → Prop
  | .idle | .top | .gate | .reap | .dequeue | .done => True
  | _ => False

/-- An undisturbed worker makes the whole pass. -/
theorem workerIteration_eq_steps (clock : EvalId → Instant) (now : Instant) (sh : Shared) :
    ∃ n pc, WorkerPc.Resting pc ∧
      (fun st : WorkerPc × Shared => st.1.step F clock now st.2)^[n + 1] (.top, sh) =
        (pc, (workerIteration F clock now sh).2) := by
  unfold workerIteration
  split
  next hdown => exact ⟨0, .done, trivial, by simp [WorkerPc.step, hdown]⟩
  next hdown =>
  split
  next hlead => exact ⟨1, .idle, trivial, by simp_all [WorkerPc.step]⟩
  next hlead =>
  have hdown' : sh.shutdown = false := by simpa using hdown
  have hlead' : sh.raft.isLeader = true := by simpa using hlead
  split
  next queue hdeq =>
    exact ⟨3, .idle, trivial, by simp [Function.iterate_succ, WorkerPc.step, hdown', hlead', hdeq]⟩
  next eval queue hdeq =>
  simp only
  split
  next raft hcom =>
    by_cases hp : parks eval (processEval F eval sh.raft.state) raft.state = true
    · exact ⟨8, .top, trivial, by
        simp [Function.iterate_succ, WorkerPc.step, hdown', hlead', hdeq, hcom, hp]⟩
    · exact ⟨7, .top, trivial, by
        simp [Function.iterate_succ, WorkerPc.step, hdown', hlead', hdeq, hcom, hp]⟩
  next raft hcom =>
    exact ⟨6, .top, trivial, by
      simp [Function.iterate_succ, WorkerPc.step, hdown', hlead', hdeq, hcom]⟩

/-! ## What one action can do -/

variable {F} {clock : EvalId → Instant} {now : Instant} {sh : Shared}

/-- Only the commit action writes to the raft node. -/
theorem WorkerPc.step_raft (clock : EvalId → Instant) (now : Instant) (sh : Shared)
    (pc : WorkerPc) :
    (∃ eval plan, pc = .commit eval plan ∧
      (pc.step F clock now sh).2.raft = (commitPlan sh.raft plan.allocs).2) ∨
    ((∀ eval plan, pc ≠ .commit eval plan) ∧ (pc.step F clock now sh).2.raft = sh.raft) := by
  cases pc with
  | commit eval plan =>
      refine .inl ⟨eval, plan, rfl, ?_⟩
      simp only [step]
      split
      all_goals next h => rw [h]
  | dequeue =>
      refine .inr ⟨by simp, ?_⟩
      simp only [step]
      split <;> rfl
  | _ => exact .inr ⟨by simp, rfl⟩

theorem WorkerPc.step_eq_commit {pc : WorkerPc} {eval : Evaluation} {plan : Plan}
    (h : (pc.step F clock now sh).1 = .commit eval plan) :
    pc = .plan eval ∧ plan = processEval F eval sh.raft.state := by
  cases pc with
  | plan e =>
      cases h
      exact ⟨rfl, rfl⟩
  | top => simp only [step] at h; split at h <;> cases h
  | gate => simp only [step] at h; split at h <;> cases h
  | dequeue => simp only [step] at h; split at h <;> cases h
  | commit e p => simp only [step] at h; split at h <;> cases h
  | decide e p => simp only [step] at h; split at h <;> cases h
  | _ => cases h

end Loop

/-! ## Committing a plan -/

def RaftNode.commitAll (raft : RaftNode) (as : List Allocation) : RaftNode :=
  { raft with log := raft.log ++ as.map .upsertAlloc, fsm := ⟨raft.state.commitAll as⟩ }

@[simp] theorem RaftNode.state_commitAll (raft : RaftNode) (as : List Allocation) :
    (raft.commitAll as).state = raft.state.commitAll as := rfl

theorem RaftNode.commitAll_append (raft : RaftNode) (as bs : List Allocation) :
    raft.commitAll (as ++ bs) = (raft.commitAll as).commitAll bs := by
  simp [commitAll, RaftNode.state, StateStore.commitAll_append]

/-- Committing a plan commits a prefix of it, all of it when the result is `Ok`. -/
theorem commitPlan_spec (raft : RaftNode) (as : List Allocation) :
    ∃ done rest, as = done ++ rest ∧ (commitPlan raft as).2 = raft.commitAll done ∧
      (∀ a ∈ done, a.validate = .ok ()) ∧
      (((commitPlan raft as).1 = .ok () ∧ rest = []) ∨
        ∃ e, (commitPlan raft as).1 = .error e ∧ rest ≠ []) := by
  induction as generalizing raft with
  | nil => exact ⟨[], [], rfl, by simp [commitPlan, RaftNode.commitAll, RaftNode.state],
      by simp, .inl ⟨rfl, rfl⟩⟩
  | cons a as ih =>
      rw [commitPlan]
      rcases raft.propose_cases (.upsertAlloc a) with ⟨_, ha, h⟩ | ⟨_, e, h⟩
      · obtain ⟨done, rest, rfl, hraft, hval, hres⟩ := ih (raft.committed (.upsertAlloc a))
        refine ⟨a :: done, rest, rfl, ?_, List.forall_mem_cons.2 ⟨ha, hval⟩, ?_⟩
        · simp only [h, hraft]
          simp [RaftNode.commitAll, RaftNode.committed, RaftNode.state]
        · simpa only [h] using hres
      · refine ⟨[], a :: as, rfl, ?_, by simp, .inr ⟨e, by simp [h], by simp⟩⟩
        simp [h, RaftNode.commitAll, RaftNode.state]

/-- A leader commits a plan of valid allocations whole. -/
theorem commitPlan_of_valid {raft : RaftNode} {as : List Allocation} (hl : raft.isLeader = true)
    (has : ∀ a ∈ as, a.validate = .ok ()) : commitPlan raft as = (.ok (), raft.commitAll as) := by
  induction as generalizing raft with
  | nil => simp [commitPlan, RaftNode.commitAll, RaftNode.state]
  | cons a as ih =>
      obtain ⟨ha, has⟩ := List.forall_mem_cons.1 has
      rcases raft.propose_cases (.upsertAlloc a) with ⟨_, _, hp⟩ | ⟨hn, _⟩
      · rw [commitPlan, hp]
        have hrest : commitPlan (raft.committed (.upsertAlloc a)) as = _ := ih hl has
        simp only [hrest]
        simp [RaftNode.commitAll, RaftNode.committed, RaftNode.state]
      · exact absurd ha (hn hl)

end NomadRs
