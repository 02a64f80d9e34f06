import NomadRs.Release
import NomadRs.Server

/-!
# Workers of a release build

A pass of the worker and the server, with the scheduler of a release build. Two actions of a worker
do arithmetic: it computes a plan, and it adds up how many instances are wanted. All other steps are
those of `Server.next` (`next_cases`).
-/

namespace NomadRs.Release

section Loop
variable (F : Type) [F64 F] [Crates]

def parks (eval : Evaluation) (plan : Plan) (state : StateStore) : Bool :=
  plan.allocs.isEmpty && desiredCount eval state > 0

def workerIteration (clock : EvalId → Instant) (now : Instant) (sh : Shared) : Pass × Shared :=
  if sh.shutdown then (.stopped, sh)
  else if !sh.raft.isLeader then (.idle, sh)
  else
    match (sh.queue.reapExpired clock visibility).2.dequeue now with
    | (none, queue) => (.idle, { sh with queue })
    | (some eval, queue) =>
      let plan := processEval F eval sh.raft.state
      match commitPlan sh.raft plan.allocs with
      | (.ok _, raft) =>
        let queue := if parks eval plan raft.state then queue.block eval else queue
        (.acked eval plan, { sh with raft, queue := queue.ack eval.id })
      | (.error _, raft) => (.nacked eval, { sh with raft, queue := queue.nack eval.id })

theorem workerIteration_raft (clock : EvalId → Instant) (now : Instant) (sh : Shared) :
    (workerIteration F clock now sh).2.raft = sh.raft ∨
    ((sh.queue.reapExpired clock visibility).2.heap ≠ [] ∧ ∃ eval,
      (workerIteration F clock now sh).2.raft =
        (commitPlan sh.raft (processEval F eval sh.raft.state).allocs).2) := by
  unfold workerIteration
  split
  · exact .inl rfl
  split
  · exact .inl rfl
  rcases (sh.queue.reapExpired clock visibility).2.dequeue_cases now with
    ⟨_, hnone⟩ | ⟨pe, heap, hpop, hdeq⟩
  · rw [hnone]
    exact .inl rfl
  · refine .inr ⟨fun hempty => ?_, pe.eval, ?_⟩
    · rw [popGreatest_eq_none.2 hempty] at hpop
      cases hpop
    · rw [hdeq]
      dsimp only
      split
      all_goals next hcommit => rw [hcommit]

/-- The actions of a worker, of which two do arithmetic. -/
def step (clock : EvalId → Instant) (now : Instant) (sh : Shared) :
    WorkerPc → WorkerPc × Shared
  | .plan eval => (.commit eval (processEval F eval sh.raft.state), sh)
  | .decide eval p => (if parks eval p sh.raft.state then .block eval else .ack eval, sh)
  | pc => pc.step F clock now sh

def act (self : Server) (i : ℕ) (clock : EvalId → Instant) (now : Instant) : Server :=
  let next := step F clock now self.toShared (self.workers i)
  { self with
    toShared := next.2
    workers := Function.update self.workers i next.1
    evaluatedAt := match self.workers i with
      | .plan eval => Function.update self.evaluatedAt eval.id self.raft.log.length
      | _ => self.evaluatedAt }

def work (self : Server) (i : ℕ) (clock : EvalId → Instant) (now : Instant) : Server :=
  if self.aborted i = true ∧ self.workers i = .idle then
    { self with workers := Function.update self.workers i .done }
  else act F self i clock now

def next (self : Server) : ServerEvent → Option Server
  | .worker i clock now => some (work F self i clock now)
  | event => self.next F event

inductive Step : Server → ServerEvent → Server → Prop
  | next {s s' : Server} {event : ServerEvent} : next F s event = some s' → Step s event s'
  | relayout (s : Server) (state : StateStore) (inFlight : HashMap EvalId PendingEval) :
      s.raft.state.Relayout state → s.queue.inFlight.Relayout inFlight →
      Step s .relayout { s with
        raft := { s.raft with fsm := ⟨state⟩ }
        queue := { s.queue with inFlight } }

def system (nodeName : String) : System Server ServerEvent where
  start s := s = .new nodeName
  step := Step F

variable {F} {s s' : Server} {event : ServerEvent}

/-- A step is one of `Server.next`, or a worker does arithmetic and the raft node stays as it is. -/
theorem next_cases (h : next F s event = some s') : s.next F event = some s' ∨
    ∃ i clock now, event = .worker i clock now ∧ s'.raft = s.raft ∧
      ((∃ eval, s.workers i = .plan eval ∧
          s'.workers =
            Function.update s.workers i (.commit eval (processEval F eval s.raft.state))) ∨
        ∃ eval plan pc, s.workers i = .decide eval plan ∧ (pc = .block eval ∨ pc = .ack eval) ∧
          s'.workers = Function.update s.workers i pc) := by
  cases event with
  | worker i clock now =>
      cases h
      cases hpc : s.workers i with
      | plan eval =>
          refine .inr ⟨i, clock, now, rfl, ?_, .inl ⟨eval, hpc, ?_⟩⟩ <;>
            simp [work, act, step, hpc]
      | decide eval plan =>
          refine .inr ⟨i, clock, now, rfl, ?_, .inr ⟨eval, plan,
            if parks eval plan s.raft.state then .block eval else .ack eval, hpc, ?_, ?_⟩⟩
          · simp [work, act, step, hpc]
          · split
            · exact .inl rfl
            · exact .inr rfl
          · simp [work, act, step, hpc]
      | _ => exact .inl (by simp [Server.next, Server.work, Server.act, work, act, step, hpc])
  | _ => exact .inl h

theorem exists_reachable (nodeName : String) (events : List ServerEvent) (p : Server → Bool)
    (he : (System.exec (next F) (.new nodeName) events).any p = true) :
    ∃ s, (system F nodeName).Reachable s ∧ p s = true :=
  System.ReachableVia.exists_of_exec (fun _ _ _ h => ⟨trivial, Step.next h⟩) (.start rfl)
    events p he

end Loop
end NomadRs.Release
