import NomadRs.Worker

/-!
# The server as a concurrent system

Any number of scheduler workers and request threads share the raft node, the queue and the
shutdown flag, and every action that takes a lock is a step of its own. `run` spawns a worker and
`stop` aborts it, but an abort only ends a task at an await: a worker in the middle of a pass
finishes it, and goes on if `run` has reset the flag by then. So two workers may be alive.
-/

namespace NomadRs

inductive ServerStatus
  | initialized | running | stopped
  deriving DecidableEq

/-- `requests` lists the requests whose first half is done. `evaluatedAt` is no part of the program:
it records, for each evaluation, the length of the raft log its last plan was computed against. -/
structure Server extends Shared where
  status : ServerStatus := .initialized
  worker : Option ℕ := none
  spawned : ℕ := 0
  workers : ℕ → WorkerPc := fun _ => .done
  aborted : ℕ → Bool := fun _ => false
  requests : List FollowUp := []
  evaluatedAt : EvalId → ℕ := fun _ => 0

inductive ServerEvent
  | run
  | stop
  | worker (i : ℕ) (clock : EvalId → Instant) (now : Instant)
  | begin (request : Request)
  | finish (j : ℕ) (nanos : Nat) (now : Instant)
  | relayout

namespace Server

def new (nodeName : String) : Server := { raft := .bootstrap nodeName }

def run (self : Server) : Server :=
  if self.status = .running then self
  else { self with
    shutdown := false
    status := .running
    worker := some self.spawned
    spawned := self.spawned + 1
    workers := Function.update self.workers self.spawned .idle }

def stop (self : Server) : Server :=
  { self with
    shutdown := true
    status := .stopped
    worker := none
    aborted := match self.worker with
      | none => self.aborted
      | some i => Function.update self.aborted i true }

/-- A request thread takes the first half of a request. -/
def beginRequest (self : Server) (request : Request) : Server :=
  { self with
    raft := (request.begin self.raft).2
    requests := self.requests ++ match (request.begin self.raft).1 with
      | .ok (.inr followUp) => [followUp]
      | _ => [] }

@[simp] theorem listAllocs_new (nodeName : String) :
    (new nodeName).raft.state.listAllocs = [] := rfl

@[simp] theorem run_raft (s : Server) : s.run.raft = s.raft := by
  unfold run
  split <;> rfl

@[simp] theorem run_queue (s : Server) : s.run.queue = s.queue := by
  unfold run
  split <;> rfl

@[simp] theorem run_requests (s : Server) : s.run.requests = s.requests := by
  unfold run
  split <;> rfl

@[simp] theorem run_evaluatedAt (s : Server) : s.run.evaluatedAt = s.evaluatedAt := by
  unfold run
  split <;> rfl

theorem beginRequest_cases (s : Server) (request : Request) :
    (s.beginRequest request).raft = s.raft ∨
    ∃ c, request.command = some c ∧ s.raft.state.Accepts c ∧
      (s.beginRequest request).raft = s.raft.committed c ∧
      request.followUp ∈ (s.beginRequest request).requests := by
  rcases request.begin_raft s.raft with hraft | ⟨c, hc, hacc, hbegin⟩
  · exact .inl hraft
  · refine .inr ⟨c, hc, hacc, ?_, ?_⟩
    · simp only [beginRequest, hbegin]
    · simp [beginRequest, hbegin]

section Steps
variable (F : Type) [F64 F] [Crates]

def act (self : Server) (i : ℕ) (clock : EvalId → Instant) (now : Instant) : Server :=
  let next := (self.workers i).step F clock now self.toShared
  { self with
    toShared := next.2
    workers := Function.update self.workers i next.1
    evaluatedAt := match self.workers i with
      | .plan eval => Function.update self.evaluatedAt eval.id self.raft.log.length
      | _ => self.evaluatedAt }

/-- Worker `i` is scheduled: an aborted task ends at an await, any other takes its next action. -/
def work (self : Server) (i : ℕ) (clock : EvalId → Instant) (now : Instant) : Server :=
  if self.aborted i = true ∧ self.workers i = .idle then
    { self with workers := Function.update self.workers i .done }
  else self.act F i clock now

def next (self : Server) : ServerEvent → Option Server
  | .run => some self.run
  | .stop => some self.stop
  | .worker i clock now => some (self.work F i clock now)
  | .begin request => some (self.beginRequest request)
  | .finish j nanos now =>
    self.requests[j]?.map fun followUp => { self with
      queue := (followUp.run self.queue nanos now).2
      requests := self.requests.eraseIdx j }
  | .relayout => none

/-- The events, and iteration orders that change between them. -/
inductive Step : Server → ServerEvent → Server → Prop
  | next {s s' : Server} {event : ServerEvent} : s.next F event = some s' → Step s event s'
  | relayout (s : Server) (state : StateStore) (inFlight : HashMap EvalId PendingEval) :
      s.raft.state.Relayout state → s.queue.inFlight.Relayout inFlight →
      Step s .relayout { s with
        raft := { s.raft with fsm := ⟨state⟩ }
        queue := { s.queue with inFlight } }

def system (nodeName : String) : System Server ServerEvent where
  start s := s = new nodeName
  step := Step F

/-! ## What one event can do -/

variable {F} {s s' : Server} {event : ServerEvent}

theorem act_evaluatedAt (s : Server) (i : ℕ) (clock : EvalId → Instant) (now : Instant)
    (id : EvalId) : (s.act F i clock now).evaluatedAt id = s.evaluatedAt id ∨
      (s.act F i clock now).evaluatedAt id = s.raft.log.length := by
  unfold act
  cases s.workers i with
  | plan eval =>
      by_cases hid : id = eval.id
      · subst hid
        exact .inr (Function.update_self ..)
      · exact .inl (Function.update_of_ne hid _ _)
  | _ => exact .inl rfl

/-- The raft node changes when a worker commits its plan, or a request its command. -/
theorem next_raft (h : s.next F event = some s') :
    s'.raft = s.raft ∨
    (∃ i clock now eval plan, event = .worker i clock now ∧ s.workers i = .commit eval plan ∧
      s'.raft = (commitPlan s.raft plan.allocs).2) ∨
    ∃ request c, event = .begin request ∧ request.command = some c ∧
      s.raft.state.Accepts c ∧ s'.raft = s.raft.committed c := by
  cases event with
  | run =>
      cases h
      exact .inl s.run_raft
  | stop =>
      cases h
      exact .inl rfl
  | worker i clock now =>
      cases h
      unfold work
      split
      · exact .inl rfl
      · rcases WorkerPc.step_raft (F := F) clock now s.toShared (s.workers i) with
          ⟨eval, plan, hpc, hraft⟩ | ⟨_, hraft⟩
        · exact .inr (.inl ⟨i, clock, now, eval, plan, rfl, hpc, hraft⟩)
        · exact .inl hraft
  | begin request =>
      cases h
      rcases s.beginRequest_cases request with hraft | ⟨c, hc, hacc, hraft, _⟩
      · exact .inl hraft
      · exact .inr (.inr ⟨request, c, rfl, hc, hacc, hraft⟩)
  | finish j nanos now =>
      obtain ⟨followUp, _, rfl⟩ := Option.map_eq_some_iff.1 h
      exact .inl rfl
  | relayout => cases h

/-- A worker about to commit was so before, or has just computed its plan. -/
theorem next_commit (h : s.next F event = some s') {i : ℕ} {eval : Evaluation} {plan : Plan}
    (hpc : s'.workers i = .commit eval plan) :
    (s.workers i = .commit eval plan ∧ ∀ clock now, event ≠ .worker i clock now) ∨
    (s.workers i = .plan eval ∧ plan = processEval F eval s.raft.state ∧ s'.raft = s.raft) := by
  cases event with
  | run =>
      cases h
      unfold run at hpc
      split at hpc
      · exact .inl ⟨hpc, by simp⟩
      · by_cases hi : i = s.spawned
        · rw [hi] at hpc
          simp at hpc
        · simp only [Function.update_of_ne hi] at hpc
          exact .inl ⟨hpc, by simp⟩
  | stop =>
      cases h
      exact .inl ⟨hpc, by simp⟩
  | worker k clock now =>
      cases h
      unfold work at hpc ⊢
      by_cases hi : i = k
      · subst hi
        split at hpc
        · simp at hpc
        next hrun =>
          rw [if_neg hrun]
          simp only [act, Function.update_self] at hpc
          obtain ⟨hplan, heq⟩ := WorkerPc.step_eq_commit hpc
          exact .inr ⟨hplan, heq, by simp only [act, hplan, WorkerPc.step]⟩
      · have hold : s.workers i = .commit eval plan := by
          split at hpc
          · simpa only [Function.update_of_ne hi] using hpc
          · simpa only [act, Function.update_of_ne hi] using hpc
        refine .inl ⟨hold, fun clock' now' he => ?_⟩
        cases he
        exact hi rfl
  | begin request =>
      cases h
      exact .inl ⟨hpc, by simp⟩
  | finish j nanos now =>
      obtain ⟨followUp, _, rfl⟩ := Option.map_eq_some_iff.1 h
      exact .inl ⟨hpc, by simp⟩
  | relayout => cases h

theorem exists_reachable (nodeName : String) (events : List ServerEvent) (p : Server → Bool)
    (he : (System.exec (next F) (new nodeName) events).any p = true) :
    ∃ s, (system F nodeName).Reachable s ∧ p s = true :=
  System.ReachableVia.exists_of_exec (fun _ _ _ h => ⟨trivial, Step.next h⟩) (.start rfl)
    events p he

theorem workers_eq_done {nodeName : String} (h : (system F nodeName).Reachable s) :
    ∀ i, s.spawned ≤ i → s.workers i = .done := by
  refine h.invariant (fun s => ∀ i, s.spawned ≤ i → s.workers i = .done) ?_ ?_
  · rintro _ rfl i _
    rfl
  · rintro s event s' hs _ (⟨hnext⟩ | _)
    · intro i hi
      cases event with
      | run =>
          cases hnext
          unfold run at hi ⊢
          split at hi
          next hrun =>
            rw [if_pos hrun]
            exact hs i hi
          next hrun =>
            rw [if_neg hrun]
            have hlt : s.spawned < i := hi
            exact (Function.update_of_ne hlt.ne' _ _).trans (hs i hlt.le)
      | worker k clock now =>
          cases hnext
          unfold work at hi ⊢
          by_cases hik : i = k
          · subst hik
            have hspawned : s.spawned ≤ i := by
              split at hi <;> exact hi
            have hdone : s.workers i = .done := hs i hspawned
            simp [hdone, act, WorkerPc.step]
          · split at hi
            next habort =>
              rw [if_pos habort]
              exact (Function.update_of_ne hik _ _).trans (hs i hi)
            next habort =>
              rw [if_neg habort]
              exact (Function.update_of_ne hik _ _).trans (hs i hi)
      | finish j nanos now =>
          obtain ⟨followUp, _, rfl⟩ := Option.map_eq_some_iff.1 hnext
          exact hs i hi
      | relayout => cases hnext
      | _ =>
          cases hnext
          exact hs i hi
    · exact hs

end Steps
end Server
end NomadRs
