import NomadRs.Rpc

/-!
# Requests are all-or-nothing

An endpoint whose raft node and queue have been through any requests, proposals and queue
operations handles one more request. If it answers with an error or refers to the leader, it has
changed neither of the two; otherwise both have changed together, by exactly what the answer
promises (`handle_all_or_nothing`).
-/

namespace NomadRs

theorem Evaluation.validate_eq_ok {eval : Evaluation} : eval.validate = .ok () ↔
    eval.id.isEmpty = false ∧ eval.jobId.isEmpty = false ∧
      jobMinPriority ≤ eval.priority ∧ eval.priority ≤ jobMaxPriority := by
  simp [validate, requireNonEmpty, Result.bind_eq_ok]

theorem isEmpty_evalIdFor (jobName : String) (nanos : Nat) :
    (evalIdFor jobName nanos).isEmpty = false := by simp [evalIdFor, toString]

namespace EvalQueue

def pending (q : EvalQueue) : List Evaluation := q.heap.map PendingEval.eval

/-- One evaluation more is pending; the rest is as before. -/
structure Adds (eval : Evaluation) (q q' : EvalQueue) : Prop where
  pending : q'.pending.Perm (eval :: q.pending)
  inFlight : q'.inFlight = q.inFlight
  blocked : q'.blocked = q.blocked

/-- All that was blocked is pending. -/
structure Unblocks (q q' : EvalQueue) : Prop where
  pending : q'.pending.Perm (q.pending ++ q.blocked)
  inFlight : q'.inFlight = q.inFlight
  blocked : q'.blocked = []

theorem adds_enqueue (q : EvalQueue) (eval : Evaluation) : q.Adds eval (q.enqueue eval) :=
  ⟨.refl _, rfl, rfl⟩

theorem unblocks_unblockAll (q : EvalQueue) : q.Unblocks q.unblockAll.2 := by
  obtain ⟨pes, hfold, hmap, _⟩ := foldl_push q.blocked { q with blocked := [] }
  rw [unblockAll, hfold]
  refine ⟨?_, rfl, rfl⟩
  have hperm : (pes.map PendingEval.eval).Perm q.blocked := by
    rw [← hmap, List.map_reverse]
    exact (List.reverse_perm _).symm
  rw [pending, pending, List.map_append]
  exact (hperm.append_right _).trans List.perm_append_comm

end EvalQueue

namespace RpcEndpoint

/-! ## Endpoints in use -/

inductive Event
  | handle (nanos : Nat) (now : Instant) (request : Request)
  | propose (c : Command)
  | queue (event : QueueEvent)
  | relayout

inductive Step (self : RpcEndpoint) : Event → RpcEndpoint → Prop
  | handle (nanos : Nat) (now : Instant) (request : Request) :
      Step self (.handle nanos now request) (self.handle nanos now request).2
  | propose (c : Command) : Step self (.propose c) { self with raft := (self.raft.propose c).2 }
  | queue (event : QueueEvent) (evalQueue : EvalQueue) :
      QueueStep self.evalQueue event evalQueue → Step self (.queue event) { self with evalQueue }
  | relayout (state : StateStore) : self.raft.state.Relayout state →
      Step self .relayout { self with raft := { self.raft with fsm := ⟨state⟩ } }

/-- Endpoints over the node of a leader or of a follower. -/
def system (nodeName : String) : System RpcEndpoint Event where
  start self := self.evalQueue = .new ∧
    (self.raft = .bootstrap nodeName ∨ self.raft = .new nodeName)
  step := Step

variable {self self' : RpcEndpoint} {nanos : Nat} {now : Instant} {request : Request}

theorem wellFormed_propose {raft : RaftNode} (h : raft.state.WellFormed) (c : Command) :
    (raft.propose c).2.state.WellFormed := by
  rcases raft.propose_cases c with ⟨_, hc, hp⟩ | ⟨_, e, hp⟩ <;> rw [hp]
  · exact h.applied hc
  · exact h

theorem wellFormed_of_reachable {nodeName : String} (h : (system nodeName).Reachable self) :
    self.raft.state.WellFormed := by
  refine h.invariant (fun self => self.raft.state.WellFormed) ?_ fun s event s' hs _ hstep => ?_
  · rintro s ⟨-, hraft | hraft⟩ <;> rw [hraft] <;> exact .new
  · cases hstep with
    | handle nanos now request =>
        rw [handle_raft]
        rcases request.begin_raft s.raft with hraft | ⟨c, _, hacc, hbegin⟩
        · rwa [hraft]
        · rw [hbegin]
          exact hs.applied hacc
    | propose c => exact wellFormed_propose hs c
    | queue event q hq => exact hs
    | relayout state hr => exact hs.relayout hr

/-! ## One request -/

theorem eq_notLeader_of_commit {raft : RaftNode} {c : Command} {resp : Response}
    (h : (commit raft c).1 = .ok (some resp)) : resp = .notLeader raft.leaderAddr := by
  unfold commit at h
  split at h
  · cases h
    rfl
  · split at h <;> cases h

theorem eq_notLeader_of_begin {raft : RaftNode} {resp : Response}
    (h : (request.begin raft).1 = .ok (.inl resp)) : resp = .notLeader raft.leaderAddr := by
  unfold Request.begin at h
  split at h
  · cases h
  · split at h
    · cases h
    next command _ =>
      rcases hc : commit raft command with ⟨_ | _ | resp', raft'⟩ <;> rw [hc] at h <;> cases h
      exact eq_notLeader_of_commit (congrArg Prod.fst hc)

/-- A request is refused and leaves the endpoint as it was, or both of its halves are carried
out. -/
theorem handle_cases (self : RpcEndpoint) (nanos : Nat) (now : Instant) (request : Request) :
    ((self.handle nanos now request).2 = self ∧
      ((∃ e, (self.handle nanos now request).1 = .error e) ∨
        (self.handle nanos now request).1 = .ok (.notLeader self.raft.leaderAddr))) ∨
    ∃ raft, self.handle nanos now request =
        (.ok (request.followUp.run self.evalQueue nanos now).1,
          ⟨(request.followUp.run self.evalQueue nanos now).2, raft⟩) ∧
      ((request.command = none ∧ raft = self.raft) ∨
        ∃ c, request.command = some c ∧ self.raft.state.Accepts c ∧
          raft = self.raft.committed c) := by
  rw [handle_eq]
  rcases request.begin_cases self.raft with ⟨c, hc, hacc, hb⟩ | ⟨hc, hb⟩ | ⟨hne, hraft⟩
  · rw [hb]
    exact .inr ⟨_, rfl, .inr ⟨c, hc, hacc, rfl⟩⟩
  · rw [hb]
    exact .inr ⟨_, rfl, .inl ⟨hc, rfl⟩⟩
  · left
    rcases hb : request.begin self.raft with ⟨e | resp | followUp, raft⟩
    · obtain rfl : raft = self.raft := by rw [← hraft, hb]
      exact ⟨rfl, .inl ⟨e, rfl⟩⟩
    · obtain rfl : raft = self.raft := by rw [← hraft, hb]
      exact ⟨rfl, .inr (by rw [eq_notLeader_of_begin (congrArg Prod.fst hb)])⟩
    · exact absurd (congrArg Prod.fst hb) (hne followUp)

/-! ## What an answer promises -/

structure JobRegistered (job : Job) (evalId : EvalId) (before after : RpcEndpoint) : Prop where
  log : after.raft.log = before.raft.log ++ [.upsertJob job]
  stored : after.raft.state.getJob job.name = some job
  eval : ∃ eval, eval.validate = .ok () ∧ eval.id = evalId ∧ eval.jobId = job.name ∧
    eval.priority = job.priority ∧ before.evalQueue.Adds eval after.evalQueue

structure JobDeregistered (name : String) (before after : RpcEndpoint) : Prop where
  log : after.raft.log = before.raft.log ++ [.deregisterJob name]
  gone : after.raft.state.getJob name = none
  eval : ∃ eval, eval.validate = .ok () ∧ eval.jobId = name ∧
    before.evalQueue.Adds eval after.evalQueue

structure NodeRegistered (node : Node) (before after : RpcEndpoint) : Prop where
  log : after.raft.log = before.raft.log ++ [.upsertNode node]
  stored : after.raft.state.getNode node.id = some node
  queue : before.evalQueue.Unblocks after.evalQueue

theorem jobRegistered_handle {job : Job} {raft : RaftNode} (evalQueue : EvalQueue)
    (hjob : raft.state.Accepts (.upsertJob job)) (nanos : Nat) :
    JobRegistered job (evalIdFor job.name nanos) ⟨evalQueue, raft⟩
      ⟨((FollowUp.registered job.name job.priority).run evalQueue nanos now).2,
        raft.committed (.upsertJob job)⟩ where
  log := rfl
  stored := AList.lookup_insert _
  eval := ⟨_, Evaluation.validate_eq_ok.2 ⟨isEmpty_evalIdFor _ _, (Job.validate_ok hjob).1,
    (Job.validate_eq_ok.1 hjob).2.1⟩, rfl, rfl, rfl, evalQueue.adds_enqueue _⟩

/-- Only a stored job can be taken off, and the name of a stored job is not empty. -/
theorem jobDeregistered_handle {name : String} {raft : RaftNode} (evalQueue : EvalQueue)
    (hs : raft.state.WellFormed) (hjob : raft.state.Accepts (.deregisterJob name)) (nanos : Nat) :
    JobDeregistered name ⟨evalQueue, raft⟩
      ⟨((FollowUp.deregistered name).run evalQueue nanos now).2,
        raft.committed (.deregisterJob name)⟩ := by
  obtain ⟨job, hstored⟩ := Option.isSome_iff_exists.1 hjob
  obtain ⟨hname, hvalid⟩ := hs.jobs name job hstored
  refine ⟨rfl, AList.lookup_erase name _, _,
    Evaluation.validate_eq_ok.2 ⟨isEmpty_evalIdFor _ _, ?_, ?_⟩, rfl, evalQueue.adds_enqueue _⟩
  · exact hname ▸ (Job.validate_ok hvalid).1
  · change jobMinPriority ≤ 50 ∧ (50 : Int) ≤ jobMaxPriority
    decide

theorem nodeRegistered_handle (node : Node) (raft : RaftNode) (evalQueue : EvalQueue)
    (nanos : Nat) : NodeRegistered node ⟨evalQueue, raft⟩
      ⟨(FollowUp.unblock.run evalQueue nanos now).2, raft.committed (.upsertNode node)⟩ where
  log := rfl
  stored := AList.lookup_insert _
  queue := evalQueue.unblocks_unblockAll

/-- An endpoint that answers with an error or refers to the leader has changed nothing. Any other
answer is given when the write and what follows from it on the queue are both done. -/
theorem handle_all_or_nothing {nodeName : String} (h : (system nodeName).Reachable self)
    (nanos : Nat) (now : Instant) (request : Request) (answer : Result Response)
    (hhandle : self.handle nanos now request = (answer, self')) :
    ((∃ e, answer = .error e) → self' = self) ∧
    ((∃ addr, answer = .ok (.notLeader addr)) → self' = self) ∧
    (∀ evalId, answer = .ok (.jobRegistered evalId) →
      ∃ job, request = .jobRegister job ∧ JobRegistered job evalId self self') ∧
    (∀ name, request = .jobDeregister name → answer = .ok .ack → JobDeregistered name self self') ∧
    (∀ node, request = .nodeRegister node → answer = .ok .ack → NodeRegistered node self self') ∧
    ∀ schedulers, request = .evalDequeue schedulers → self'.raft = self.raft := by
  have hwf := wellFormed_of_reachable h
  rcases self.handle_cases nanos now request with ⟨hsame, hanswer⟩ | ⟨raft, hdone, hraft⟩
  · rw [hhandle] at hsame hanswer
    obtain rfl : self' = self := hsame
    refine ⟨fun _ => rfl, fun _ => rfl, ?_, ?_, ?_, fun _ _ => rfl⟩
    · rintro evalId rfl
      rcases hanswer with ⟨e, he⟩ | he <;> cases he
    · rintro name - rfl
      rcases hanswer with ⟨e, he⟩ | he <;> cases he
    · rintro node - rfl
      rcases hanswer with ⟨e, he⟩ | he <;> cases he
  · rw [hhandle, Prod.mk.injEq] at hdone
    obtain ⟨rfl, rfl⟩ := hdone
    refine ⟨?_, ?_, ?_, ?_, ?_, ?_⟩
    · rintro ⟨e, he⟩
      cases he
    · rintro ⟨addr, he⟩
      cases request <;> cases he
    · intro evalId hid
      cases request with
      | jobRegister job =>
          cases hid
          rcases hraft with ⟨hnone, _⟩ | ⟨c, hc, hacc, rfl⟩
          · cases hnone
          · cases hc
            exact ⟨job, rfl, jobRegistered_handle _ hacc nanos⟩
      | _ => cases hid
    · rintro name rfl -
      rcases hraft with ⟨hnone, _⟩ | ⟨c, hc, hacc, rfl⟩
      · cases hnone
      · cases hc
        exact jobDeregistered_handle _ hwf hacc nanos
    · rintro node rfl -
      rcases hraft with ⟨hnone, _⟩ | ⟨c, hc, hacc, rfl⟩
      · cases hnone
      · cases hc
        exact nodeRegistered_handle node _ _ nanos
    · rintro schedulers rfl
      rcases hraft with ⟨_, rfl⟩ | ⟨c, hc, _⟩
      · rfl
      · cases hc

def afterRequests : List Request → RpcEndpoint
  | [] => ⟨.new, .bootstrap "server-1"⟩
  | request :: requests => ((afterRequests requests).handle 0 0 request).2

theorem afterRequests_reachable (requests : List Request) :
    (system "server-1").Reachable (afterRequests requests) := by
  induction requests with
  | nil => exact .start ⟨rfl, .inl rfl⟩
  | cons request requests ih => exact ih.next (.handle 0 0 request)

/-- A node and a job are registered, the evaluation is fetched, and the job is deregistered. -/
theorem handle_all_or_nothing_web :
    let node : Request := .nodeRegister oneNode
    let job : Request := .jobRegister (webJob 1)
    let fetch : Request := .evalDequeue ["service"]
    NodeRegistered oneNode (afterRequests []) (afterRequests [node]) ∧
    JobRegistered (webJob 1) (evalIdFor "web" 0) (afterRequests [node])
      (afterRequests [job, node]) ∧
    ((afterRequests [fetch, job, node]).raft = (afterRequests [job, node]).raft ∧
      (afterRequests [fetch, job, node]).evalQueue.depth = ⟨0, 1, 0⟩) ∧
    JobDeregistered "web" (afterRequests [fetch, job, node])
      (afterRequests [.jobDeregister "web", fetch, job, node]) := by
  intro node job fetch
  have hstep (requests : List Request) (request : Request) :=
    handle_all_or_nothing (afterRequests_reachable requests) 0 0 request _ Prod.mk.eta.symm
  refine ⟨(hstep [] node).2.2.2.2.1 _ rfl rfl, ?_, ⟨?_, by decide⟩, ?_⟩
  · obtain ⟨_, hjob, hdone⟩ := (hstep [node] job).2.2.1 (evalIdFor "web" 0) rfl
    obtain rfl := Request.jobRegister.inj hjob
    exact hdone
  · exact (hstep [job, node] fetch).2.2.2.2.2 _ rfl
  · exact (hstep [fetch, job, node] (.jobDeregister "web")).2.2.2.1 _ rfl rfl

end RpcEndpoint
end NomadRs
