import NomadRs.EvalQueue
import NomadRs.Raft

/-!
# The request handler

`RpcEndpoint.handle` commits a write through consensus and then, with the raft lock released, does
what follows from it on the queue. `Request.begin` and `FollowUp.run` are these two halves, each
under one lock; `handle_eq` puts them together again, so interleavings of requests can be built
from the halves.
-/

namespace NomadRs

inductive Request
  | jobRegister (job : Job)
  | jobDeregister (name : String)
  | nodeRegister (node : Node)
  | evalDequeue (schedulers : List String)

inductive Response
  | jobRegistered (evalId : EvalId)
  | ack
  | eval (eval : Option Evaluation)
  | notLeader (leaderAddr : Option String)

structure RpcEndpoint where
  evalQueue : EvalQueue
  raft : RaftNode

/-- `RpcEndpoint::commit`, with the raft node as it is under the lock. -/
def commit (raft : RaftNode) (command : Command) : Result (Option Response) × RaftNode :=
  if !raft.isLeader then (.ok (some (.notLeader raft.leaderAddr)), raft)
  else
    match raft.propose command with
    | (.error e, raft) => (.error e, raft)
    | (.ok _, raft) => (.ok none, raft)

/-- `nanos` is the wall clock's reading. -/
def evalIdFor (jobName : String) (nanos : Nat) : EvalId := s!"eval-{jobName}-{nanos}"

def RpcEndpoint.handle (self : RpcEndpoint) (nanos : Nat) (now : Instant) :
    Request → Result Response × RpcEndpoint
  | .jobRegister job =>
    match job.validate with
    | .error e => (.error e, self)
    | .ok _ =>
      match commit self.raft (.upsertJob job) with
      | (.error e, raft) => (.error e, { self with raft })
      | (.ok (some resp), raft) => (.ok resp, { self with raft })
      | (.ok none, raft) =>
        let eval : Evaluation :=
          { id := evalIdFor job.name nanos, jobId := job.name, priority := job.priority
            trigger := .jobRegister, status := .pending }
        (.ok (.jobRegistered eval.id), ⟨self.evalQueue.enqueue eval, raft⟩)
  | .jobDeregister name =>
    match commit self.raft (.deregisterJob name) with
    | (.error e, raft) => (.error e, { self with raft })
    | (.ok (some resp), raft) => (.ok resp, { self with raft })
    | (.ok none, raft) =>
      -- a cleanup eval, for the scheduler to stop the allocs
      let eval : Evaluation :=
        { id := evalIdFor name nanos, jobId := name, priority := 50
          trigger := .jobDeregister, status := .pending }
      (.ok .ack, ⟨self.evalQueue.enqueue eval, raft⟩)
  | .nodeRegister node =>
    match commit self.raft (.upsertNode node) with
    | (.error e, raft) => (.error e, { self with raft })
    | (.ok (some resp), raft) => (.ok resp, { self with raft })
    | (.ok none, raft) => (.ok .ack, ⟨self.evalQueue.unblockAll.2, raft⟩)
  | .evalDequeue _ =>
    let (eval, evalQueue) := self.evalQueue.dequeue now
    (.ok (.eval eval), { self with evalQueue })

/-! ## The two halves of a request -/

/-- What a handler still has to do on the queue after its commit. -/
inductive FollowUp
  | registered (name : String) (priority : Int)
  | deregistered (name : String)
  | unblock
  | dequeue
  deriving DecidableEq

def Request.command : Request → Option Command
  | .jobRegister job => some (.upsertJob job)
  | .jobDeregister name => some (.deregisterJob name)
  | .nodeRegister node => some (.upsertNode node)
  | .evalDequeue _ => none

def Request.followUp : Request → FollowUp
  | .jobRegister job => .registered job.name job.priority
  | .jobDeregister name => .deregistered name
  | .nodeRegister _ => .unblock
  | .evalDequeue _ => .dequeue

/-- The half under the raft lock: a final response, or what is left to do. -/
def Request.begin (raft : RaftNode) (request : Request) :
    Result (Response ⊕ FollowUp) × RaftNode :=
  match (match request with | .jobRegister job => job.validate | _ => .ok ()) with
  | .error e => (.error e, raft)
  | .ok _ =>
    match request.command with
    | none => (.ok (.inr request.followUp), raft)
    | some command =>
      match commit raft command with
      | (.error e, raft) => (.error e, raft)
      | (.ok (some resp), raft) => (.ok (.inl resp), raft)
      | (.ok none, raft) => (.ok (.inr request.followUp), raft)

/-- The half under the queue lock. -/
def FollowUp.run (q : EvalQueue) (nanos : Nat) (now : Instant) : FollowUp → Response × EvalQueue
  | .registered name priority =>
    (.jobRegistered (evalIdFor name nanos), q.enqueue
      { id := evalIdFor name nanos, jobId := name, priority
        trigger := .jobRegister, status := .pending })
  | .deregistered name =>
    (.ack, q.enqueue
      { id := evalIdFor name nanos, jobId := name, priority := 50
        trigger := .jobDeregister, status := .pending })
  | .unblock => (.ack, q.unblockAll.2)
  | .dequeue => (.eval (q.dequeue now).1, (q.dequeue now).2)

theorem RpcEndpoint.handle_eq (self : RpcEndpoint) (nanos : Nat) (now : Instant)
    (request : Request) : self.handle nanos now request =
      match request.begin self.raft with
      | (.error e, raft) => (.error e, { self with raft })
      | (.ok (.inl resp), raft) => (.ok resp, { self with raft })
      | (.ok (.inr followUp), raft) =>
        (.ok (followUp.run self.evalQueue nanos now).1,
          ⟨(followUp.run self.evalQueue nanos now).2, raft⟩) := by
  cases request with
  | jobRegister job =>
      simp only [handle, Request.begin, Request.command, Request.followUp]
      cases job.validate with
      | error e => rfl
      | ok _ => rcases commit self.raft (.upsertJob job) with ⟨_ | _ | _, _⟩ <;> rfl
  | jobDeregister name =>
      simp only [handle, Request.begin, Request.command, Request.followUp]
      rcases commit self.raft (.deregisterJob name) with ⟨_ | _ | _, _⟩ <;> rfl
  | nodeRegister node =>
      simp only [handle, Request.begin, Request.command, Request.followUp]
      rcases commit self.raft (.upsertNode node) with ⟨_ | _ | _, _⟩ <;> rfl
  | evalDequeue schedulers => rfl

theorem commit_cases (raft : RaftNode) (c : Command) :
    (raft.state.Accepts c ∧ commit raft c = (.ok none, raft.committed c)) ∨
      (commit raft c).1 ≠ .ok none ∧ (commit raft c).2 = raft := by
  unfold commit
  rcases raft.propose_cases c with ⟨hl, hc, h⟩ | ⟨_, e, h⟩
  · exact .inl ⟨hc, by simp [hl, h]⟩
  · right
    cases hl : raft.isLeader <;> simp [h]

/-- The first half of a request commits its command and leaves the second half to do, or it is
all there is and the node stays as it was. -/
theorem Request.begin_cases (raft : RaftNode) (request : Request) :
    (∃ c, request.command = some c ∧ raft.state.Accepts c ∧
      request.begin raft = (.ok (.inr request.followUp), raft.committed c)) ∨
    (request.command = none ∧ request.begin raft = (.ok (.inr request.followUp), raft)) ∨
    ((∀ followUp, (request.begin raft).1 ≠ .ok (.inr followUp)) ∧
      (request.begin raft).2 = raft) := by
  unfold Request.begin
  split
  · exact .inr (.inr ⟨by simp, rfl⟩)
  · cases hc : request.command with
    | none => exact .inr (.inl ⟨rfl, rfl⟩)
    | some c =>
        rcases commit_cases raft c with ⟨hacc, h⟩ | ⟨hne, hraft⟩
        · exact .inl ⟨c, rfl, hacc, by simp [h]⟩
        · refine .inr (.inr ?_)
          rcases h : commit raft c with ⟨_ | _ | _, raft'⟩ <;> simp_all

theorem Request.begin_raft (raft : RaftNode) (request : Request) :
    (request.begin raft).2 = raft ∨ ∃ c, request.command = some c ∧ raft.state.Accepts c ∧
      request.begin raft = (.ok (.inr request.followUp), raft.committed c) := by
  rcases request.begin_cases raft with h | ⟨_, h⟩ | ⟨_, h⟩
  · exact .inr h
  · exact .inl (by rw [h])
  · exact .inl h

theorem RpcEndpoint.handle_raft (self : RpcEndpoint) (nanos : Nat) (now : Instant)
    (request : Request) : (self.handle nanos now request).2.raft = (request.begin self.raft).2 := by
  rw [handle_eq]
  split
  all_goals next h => rw [h]

end NomadRs
