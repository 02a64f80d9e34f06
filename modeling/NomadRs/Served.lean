import NomadRs.FinalPlacements

/-!
# What becomes of the evaluations that requests make

Deliveries expire and are given out again, and a worker acknowledges by id whatever is in flight
then, so what is in flight says little about who works on an evaluation. Still none is forgotten,
however the threads interleave: every job request that is logged makes one evaluation, and the
evaluation waits in the queue, or is in the hands of a worker that has not placed it yet, or has
been handed to a client, or it was served (`requests_are_accounted_for`).
-/

open scoped List

namespace NomadRs

/-! ## Evaluations of requests -/

def Command.toEvaluate : Command → Option String
  | .upsertJob job => some job.name
  | .deregisterJob name => some name
  | _ => none

def FollowUp.toEvaluate : FollowUp → Option String
  | .registered name _ | .deregistered name => some name
  | _ => none

def FollowUp.evaluation (nanos : ℕ) : FollowUp → Option Evaluation
  | .registered name priority => some
    { id := evalIdFor name nanos, jobId := name, priority
      trigger := .jobRegister, status := .pending }
  | .deregistered name => some
    { id := evalIdFor name nanos, jobId := name, priority := 50
      trigger := .jobDeregister, status := .pending }
  | _ => none

theorem FollowUp.jobId_evaluation (nanos : ℕ) (followUp : FollowUp) :
    (followUp.evaluation nanos).toList.map Evaluation.jobId = followUp.toEvaluate.toList := by
  cases followUp <;> rfl

theorem Request.toEvaluate_followUp {request : Request} {c : Command}
    (h : request.command = some c) : request.followUp.toEvaluate = c.toEvaluate := by
  cases request <;> cases h <;> rfl

theorem Request.toEvaluate_followUp_of_none {request : Request} (h : request.command = none) :
    request.followUp.toEvaluate = none := by
  cases request <;> first | rfl | cases h

/-- The queue half of a request adds what it makes, and lets go of what it hands out. -/
theorem FollowUp.standing_run (q : EvalQueue) (nanos : ℕ) (now : Instant) (followUp : FollowUp)
    {eval : Evaluation} (h : eval ∈ (followUp.evaluation nanos).toList ++ q.standing) :
    eval ∈ (followUp.run q nanos now).2.standing ∨
      followUp = .dequeue ∧ eval ∈ (q.dequeue now).1.toList := by
  cases followUp with
  | registered name priority => exact .inl h
  | deregistered name => exact .inl h
  | unblock => exact .inl (q.standing_unblockAll.mem_iff.2 h)
  | dequeue =>
      rcases hdeq : q.dequeue now with ⟨_ | eval', queue⟩
      · obtain rfl := EvalQueue.dequeue_eq_none hdeq
        simp only [run, hdeq]
        exact .inl h
      · simp only [run, hdeq]
        have hmem := (EvalQueue.standing_dequeue hdeq).1.mem_iff.1 h
        exact (List.mem_cons.1 hmem).symm.imp_right fun heq => ⟨trivial, by simpa using heq⟩

/-! ## Served evaluations -/

section Served
variable (F : Type) [F64 F] [Crates]

/-- A plan for the evaluation, made from what an earlier part of the log amounts to, is in the log
as a whole. -/
def Committed (log : List Command) (eval : Evaluation) (plan : Plan) : Prop :=
  ∃ before between st, Planned F before eval st plan ∧
    before ++ between ++ plan.allocs.map .upsertAlloc <+: log

/-- The plan placed something, or nothing was wanted any more. -/
inductive Served (log : List Command) (eval : Evaluation) : Prop
  | placed {plan : Plan} : Committed F log eval plan → plan.allocs ≠ [] → Served log eval
  | unwanted {plan : Plan} {after : List Command} {st : StateStore} :
      Committed F after eval plan → plan.allocs = [] → after <+: log → StateOf after st →
      desiredCount eval st ≤ 0 → Served log eval

def WorkerPc.Decides (log : List Command) : WorkerPc → Prop
  | .decide eval p => Committed F log eval p
  | _ => True

variable {F} {log log' : List Command} {eval : Evaluation} {plan : Plan}

theorem Committed.mono (h : Committed F log eval plan) (hlog : log <+: log') :
    Committed F log' eval plan := by
  obtain ⟨before, between, st, hplan, hin⟩ := h
  exact ⟨before, between, st, hplan, hin.trans hlog⟩

theorem Served.mono (h : Served F log eval) (hlog : log <+: log') : Served F log' eval := by
  cases h with
  | placed hcommitted hne => exact .placed (hcommitted.mono hlog) hne
  | unwanted hcommitted hnil hafter hst hcount =>
      exact .unwanted hcommitted hnil (hafter.trans hlog) hst hcount

theorem WorkerPc.Decides.mono {pc : WorkerPc} (h : pc.Decides F log) (hlog : log <+: log') :
    pc.Decides F log' := by
  cases pc with
  | decide eval p => exact Committed.mono h hlog
  | _ => trivial

theorem WorkerPc.decides_of_handles {pc : WorkerPc} (h : pc.handles = []) : pc.Decides F log := by
  cases pc <;> trivial

/-- A worker and the queue keep between them what an action does not serve. -/
theorem WorkerPc.step_standing (clock : EvalId → Instant) (now : Instant) {pc : WorkerPc}
    {sh : Shared} (hpc : pc.Traced F sh.raft.log) (hdecides : pc.Decides F sh.raft.log)
    (h : sh.Traced F) :
    (pc.step F clock now sh).1.Decides F (pc.step F clock now sh).2.raft.log ∧
      ∀ eval ∈ pc.standing ++ sh.queue.standing,
        eval ∈ (pc.step F clock now sh).1.standing ++ (pc.step F clock now sh).2.queue.standing ∨
          Served F (pc.step F clock now sh).2.raft.log eval := by
  cases pc with
  | idle => exact ⟨trivial, fun _ he => .inl he⟩
  | top =>
      simp only [WorkerPc.step]
      split <;> exact ⟨trivial, fun _ he => .inl he⟩
  | gate =>
      simp only [WorkerPc.step]
      split <;> exact ⟨trivial, fun _ he => .inl he⟩
  | reap => exact ⟨trivial, fun _ he => .inl (EvalQueue.standing_foldl_nack _ he)⟩
  | dequeue =>
      simp only [WorkerPc.step]
      rcases hdeq : sh.queue.dequeue now with ⟨_ | eval, queue⟩
      · rw [EvalQueue.dequeue_eq_none hdeq]
        exact ⟨trivial, fun _ he => .inl he⟩
      · exact ⟨trivial, fun _ he => .inl ((EvalQueue.standing_dequeue hdeq).1.mem_iff.1 he)⟩
  | plan eval => exact ⟨trivial, fun _ he => .inl he⟩
  | commit eval p =>
      obtain ⟨_, before, st, _, ⟨between, hbefore⟩, hplan⟩ := hpc
      simp only [WorkerPc.step]
      rw [commitPlan_of_valid h.leader fun a ha => (hplan.placed a ha).valid]
      have hcommitted : Committed F (sh.raft.log ++ p.allocs.map .upsertAlloc) eval p :=
        ⟨before, between, st, hplan, by rw [hbefore]⟩
      refine ⟨hcommitted, fun e he => ?_⟩
      by_cases hnil : p.allocs = []
      · refine .inl ?_
        simpa only [WorkerPc.standing, if_pos hnil] using he
      · rcases List.mem_cons.1 he with rfl | he
        · exact .inr (.placed hcommitted hnil)
        · exact .inl (List.mem_append_right _ he)
  | decide eval p =>
      simp only [WorkerPc.step]
      split
      next =>
        refine ⟨trivial, fun e he => .inl ?_⟩
        simp only [WorkerPc.standing] at he ⊢
        split at he
        · exact he
        · exact List.mem_cons_of_mem _ he
      next hparks =>
        refine ⟨trivial, fun e he => ?_⟩
        simp only [WorkerPc.standing] at he ⊢
        split at he
        next hnil =>
          rcases List.mem_cons.1 he with rfl | he
          · refine .inr (.unwanted hdecides hnil List.prefix_rfl h.state ?_)
            simpa [parks, hnil] using hparks
          · exact .inl he
        next => exact .inl he
  | block eval =>
      exact ⟨trivial, fun e he => .inl ((sh.queue.standing_block eval).mem_iff.2 he)⟩
  | ack eval => exact ⟨trivial, fun _ he => .inl he⟩
  | nack eval => exact ⟨trivial, fun _ he => .inl (EvalQueue.standing_nack _ he)⟩
  | done => exact ⟨trivial, fun _ he => .inl he⟩

/-! ## The server's books -/

omit [Crates] in
theorem toEvaluate_commitPlan (raft : RaftNode) (as : List Allocation) :
    (commitPlan raft as).2.log.filterMap Command.toEvaluate =
      raft.log.filterMap Command.toEvaluate := by
  obtain ⟨done, _, _, hraft, _⟩ := commitPlan_spec raft as
  rw [hraft]
  change (raft.log ++ done.map Command.upsertAlloc).filterMap _ = _
  rw [List.filterMap_append, List.filterMap_map]
  simp [Function.comp_def, Command.toEvaluate]

omit [Crates] in
theorem filterMap_cons_toList {α β : Type*} (f : α → Option β) (a : α) (l : List α) :
    (a :: l).filterMap f = (f a).toList ++ l.filterMap f := by
  cases h : f a <;> simp [h]

omit [Crates] in
theorem perm_cons_eraseIdx {α : Type*} {l : List α} {j : ℕ} {a : α} (h : l[j]? = some a) :
    l ~ a :: l.eraseIdx j := by
  induction l generalizing j with
  | nil => cases h
  | cons b l ih =>
      cases j with
      | zero =>
          cases h
          exact .refl _
      | succ j => exact ((ih h).cons b).trans (.swap ..)

namespace Server

def creates (s : Server) : ServerEvent → List Evaluation
  | .finish j nanos _ => (s.requests[j]?.bind (FollowUp.evaluation nanos)).toList
  | _ => []

def handsOut (s : Server) : ServerEvent → List Evaluation
  | .finish j _ now => if s.requests[j]? = some .dequeue then (s.queue.dequeue now).1.toList else []
  | _ => []

/-- An evaluation waits in the queue, or a worker has it that has not placed it. -/
def Standing (s : Server) (eval : Evaluation) : Prop :=
  InCustody (fun i => (s.workers i).standing) s.queue.standing eval

variable (F) in
/-- Every logged job request has made an evaluation, or has yet to make it; and what was made is
still to be worked on by the server, or was handed to a client, or was served. -/
structure Accounted (s : Server) (created handedOut : List Evaluation) : Prop where
  jobs : s.raft.log.filterMap Command.toEvaluate ~
    s.requests.filterMap FollowUp.toEvaluate ++ created.map Evaluation.jobId
  decides : ∀ i, (s.workers i).Decides F s.raft.log
  created : ∀ eval ∈ created, s.Standing eval ∨ eval ∈ handedOut ∨ Served F s.raft.log eval

variable {s s' : Server} {created handedOut : List Evaluation} {event : ServerEvent}
  {nodeName : String}

theorem Accounted.new : (new nodeName).Accounted F [] [] where
  jobs := .refl _
  decides _ := trivial
  created := by simp

theorem Accounted.keep (h : s.Accounted F created handedOut)
    (hworkers : ∀ j, s'.workers j = s.workers j ∨
      (s'.workers j).handles = [] ∧ (s.workers j).handles = [])
    (hqueue : s'.queue.standing = s.queue.standing) (hlog : s.raft.log <+: s'.raft.log)
    (hjobs : s'.raft.log.filterMap Command.toEvaluate ~
      s'.requests.filterMap FollowUp.toEvaluate ++ created.map Evaluation.jobId) :
    s'.Accounted F created handedOut := by
  refine ⟨hjobs, fun j => ?_, fun eval he => ?_⟩
  · rcases hworkers j with heq | ⟨hnil, _⟩
    · exact heq ▸ (h.decides j).mono hlog
    · exact WorkerPc.decides_of_handles hnil
  · rw [Standing, WorkerPc.standing_congr hworkers, hqueue]
    exact (h.created eval he).imp_right fun hrest => hrest.imp_right fun hserved =>
      hserved.mono hlog

theorem Accounted.act (h : s.Accounted F created handedOut) (ht : s.Traced F) (i : ℕ)
    (clock : EvalId → Instant) (now : Instant) :
    (s.act F i clock now).Accounted F created handedOut := by
  obtain ⟨hlog, _⟩ := (ht.workers i).step clock now ht.shared
  obtain ⟨hdecides, hstanding⟩ := WorkerPc.step_standing clock now (ht.workers i) (h.decides i)
    ht.shared
  have hworkers : (fun j => ((s.act F i clock now).workers j).standing) =
      Function.update (fun j => (s.workers j).standing) i
        ((s.workers i).step F clock now s.toShared).1.standing :=
    funext fun j => Function.apply_update (fun _ pc => pc.standing) s.workers i _ j
  refine ⟨?_, fun j => ?_, fun eval he => ?_⟩
  · change ((s.workers i).step F clock now s.toShared).2.raft.log.filterMap _ ~ _
    rcases WorkerPc.step_raft (F := F) clock now s.toShared (s.workers i) with
      ⟨_, _, _, hraft⟩ | ⟨_, hraft⟩
    · rw [hraft, toEvaluate_commitPlan]
      exact h.jobs
    · rw [hraft]
      exact h.jobs
  · by_cases hj : j = i
    · simp only [Server.act, hj, Function.update_self]
      exact hdecides
    · simp only [Server.act, Function.update_of_ne hj]
      exact (h.decides j).mono hlog
  · rcases h.created eval he with hwaits | hhanded | hserved
    · rw [Standing, hworkers]
      refine (Custody.inCustody_or_of_exchange ?_ hwaits).imp_right .inr
      exact hstanding
    · exact .inr (.inl hhanded)
    · exact .inr (.inr (hserved.mono hlog))

theorem Accounted.begin (h : s.Accounted F created handedOut) (request : Request) :
    (s.beginRequest request).Accounted F created handedOut := by
  have hadd {x : Option String} : (s.raft.log.filterMap Command.toEvaluate) ++ x.toList ~
      (s.requests.filterMap FollowUp.toEvaluate ++ x.toList) ++ created.map Evaluation.jobId := by
    refine (h.jobs.append_right _).trans ?_
    rw [List.append_assoc, List.append_assoc]
    exact List.perm_append_comm.append_left _
  rcases request.begin_cases s.raft with ⟨c, hc, _, hbegin⟩ | ⟨hnone, hbegin⟩ | ⟨hnone, hraft⟩
  · refine h.keep (fun _ => .inl rfl) rfl ?_ ?_ <;> simp only [beginRequest, hbegin]
    · exact List.prefix_append ..
    · rw [RaftNode.log_committed, List.filterMap_append, List.filterMap_append]
      rw [filterMap_cons_toList, filterMap_cons_toList, Request.toEvaluate_followUp hc,
        List.filterMap_nil, List.filterMap_nil, List.append_nil]
      exact hadd
  · refine h.keep (fun _ => .inl rfl) rfl ?_ ?_ <;> simp only [beginRequest, hbegin]
    · exact List.prefix_rfl
    · rw [List.filterMap_append, List.filterMap_cons_none
        (Request.toEvaluate_followUp_of_none hnone), List.filterMap_nil, List.append_nil]
      exact h.jobs
  · have hlog : (s.beginRequest request).raft.log = s.raft.log := congrArg RaftNode.log hraft
    have hrequests : (s.beginRequest request).requests = s.requests := by
      unfold beginRequest
      split
      next followUp hok => exact absurd hok (hnone followUp)
      next => exact List.append_nil _
    refine h.keep (fun _ => .inl rfl) rfl (by rw [hlog]) ?_
    rw [hlog, hrequests]
    exact h.jobs

theorem Accounted.finish (h : s.Accounted F created handedOut) (j : ℕ) (nanos : ℕ) (now : Instant)
    (hnext : s.next F (.finish j nanos now) = some s') :
    s'.Accounted F (s.creates (.finish j nanos now) ++ created)
      (s.handsOut (.finish j nanos now) ++ handedOut) := by
  obtain ⟨followUp, hj, rfl⟩ := Option.map_eq_some_iff.1 hnext
  have hcreates : s.creates (.finish j nanos now) = (followUp.evaluation nanos).toList := by
    rw [creates, hj]
    rfl
  have hqueue {eval : Evaluation}
      (he : eval ∈ s.creates (.finish j nanos now) ++ s.queue.standing) :
      eval ∈ (followUp.run s.queue nanos now).2.standing ∨
        eval ∈ s.handsOut (.finish j nanos now) := by
    rw [hcreates] at he
    refine (followUp.standing_run s.queue nanos now he).imp_right ?_
    rintro ⟨rfl, hmem⟩
    rw [handsOut, if_pos hj]
    exact hmem
  have hjobs := (perm_cons_eraseIdx hj).filterMap FollowUp.toEvaluate
  refine ⟨?_, h.decides, fun eval he => ?_⟩
  · refine h.jobs.trans ((hjobs.append_right _).trans ?_)
    rw [hcreates, List.map_append, FollowUp.jobId_evaluation, filterMap_cons_toList,
      ← List.append_assoc]
    exact List.perm_append_comm.append_right _
  · rcases List.mem_append.1 he with he | he
    · exact (hqueue (List.mem_append_left _ he)).imp .inl fun hmem =>
        .inl (List.mem_append_left _ hmem)
    · rcases h.created eval he with (hpool | hheld) | hhanded | hserved
      · exact (hqueue (List.mem_append_right _ hpool)).imp .inl fun hmem =>
          .inl (List.mem_append_left _ hmem)
      · exact .inl (.inr hheld)
      · exact .inr (.inl (List.mem_append_right _ hhanded))
      · exact .inr (.inr hserved)

theorem Accounted.step (h : s.Accounted F created handedOut) (ht : s.Traced F)
    (hdone : ∀ i, s.spawned ≤ i → s.workers i = .done) (hstep : s.Step F event s') :
    s'.Accounted F (s.creates event ++ created) (s.handsOut event ++ handedOut) := by
  rcases hstep with ⟨hnext⟩ | ⟨state, inFlight, hstate, hflight⟩
  · cases event with
    | run =>
        cases hnext
        unfold Server.run
        split
        · exact h
        · refine h.keep (WorkerPc.update_handles rfl ?_) rfl List.prefix_rfl h.jobs
          rw [hdone s.spawned le_rfl]
          rfl
    | stop =>
        cases hnext
        exact h.keep (fun _ => .inl rfl) rfl List.prefix_rfl h.jobs
    | worker i clock now =>
        cases hnext
        unfold Server.work
        split
        next hend =>
          refine h.keep (WorkerPc.update_handles rfl ?_) rfl List.prefix_rfl h.jobs
          rw [hend.2]
          rfl
        · exact h.act ht i clock now
    | begin request =>
        cases hnext
        exact h.begin request
    | finish j nanos now => exact h.finish j nanos now hnext
    | relayout => cases hnext
  · exact h.keep (fun _ => .inl rfl) rfl List.prefix_rfl h.jobs

end Server
end Served

/-! ## Runs with books -/

/-- A server; the books are no part of the program. They list the evaluations that requests have
made, and those that clients were given. -/
structure BookedServer where
  server : Server
  created : List Evaluation := []
  handedOut : List Evaluation := []

section Runs
variable (F : Type) [F64 F] [Crates]

def bookedSystem (nodeName : String) : System BookedServer ServerEvent where
  start r := r = { server := .new nodeName }
  step r event r' := r.server.Step F event r'.server ∧
    r'.created = r.server.creates event ++ r.created ∧
    r'.handedOut = r.server.handsOut event ++ r.handedOut

variable {F} {nodeName : String} {r : BookedServer}

/-- Whatever the threads do, and however late they are: every job command in the log stands for one
evaluation that was made or is still to be made, and every evaluation that was made is in the queue,
or with a worker that has not placed it, or was given to a client, or has been served. -/
theorem requests_are_accounted_for (h : (bookedSystem F nodeName).Reachable r) :
    r.server.raft.log.filterMap Command.toEvaluate ~
        r.server.requests.filterMap FollowUp.toEvaluate ++ r.created.map Evaluation.jobId ∧
      ∀ eval ∈ r.created, r.server.Standing eval ∨ eval ∈ r.handedOut ∨
        Served F r.server.raft.log eval := by
  have hinv : (Server.system F nodeName).Reachable r.server ∧
      r.server.Accounted F r.created r.handedOut := by
    refine h.invariant (fun r => (Server.system F nodeName).Reachable r.server ∧
      r.server.Accounted F r.created r.handedOut) ?_ ?_
    · rintro _ rfl
      exact ⟨.start rfl, .new⟩
    · rintro r event r' ⟨hreach, haccounted⟩ _ ⟨hstep, hcreated, hhanded⟩
      rw [hcreated, hhanded]
      exact ⟨hreach.next hstep, haccounted.step (.of_reachable hreach)
        (Server.workers_eq_done hreach) hstep⟩
  exact ⟨hinv.2.jobs, hinv.2.created⟩

end Runs

section Runs
attribute [local instance] Crates.literal

def BookedServer.next (r : BookedServer) (event : ServerEvent) : Option BookedServer :=
  (r.server.next ℚ event).map fun server =>
    { server
      created := r.server.creates event ++ r.created
      handedOut := r.server.handsOut event ++ r.handedOut }

theorem BookedServer.next_step {r r' : BookedServer} {event : ServerEvent}
    (h : r.next event = some r') : (bookedSystem ℚ "server-1").step r event r' := by
  obtain ⟨server, hnext, rfl⟩ := Option.map_eq_some_iff.1 h
  exact ⟨.next hnext, rfl, rfl⟩

def actions (i n : ℕ) : List ServerEvent := List.replicate n (.worker i (fun _ => 0) 0)

/-- A worker finds no room for a job and parks its evaluation, a node comes, a second worker takes
the evaluation up, and the first one acknowledges it. -/
def acknowledgedByOther : List ServerEvent :=
  .run :: .begin (.jobRegister (webJob 1)) :: .finish 0 0 0 :: (actions 0 9 ++
    .begin (.nodeRegister oneNode) :: .finish 0 0 0 :: .stop :: .run ::
      (actions 1 5 ++ actions 0 1))

def BookedServer.onlyWithWorker (r : BookedServer) : Bool :=
  match r.server.workers 1, r.created with
  | .plan eval, [eval'] => eval == eval' && r.handedOut.isEmpty &&
      r.server.raft.log.length == 2 && r.server.queue.depth == ⟨0, 0, 0⟩
  | _, _ => false

theorem requests_are_accounted_for_worker : ∃ r : BookedServer, r.onlyWithWorker = true ∧
    ∀ eval ∈ r.created, r.server.Standing eval ∨ eval ∈ r.handedOut ∨
      Served ℚ r.server.raft.log eval := by
  have hstart : (bookedSystem ℚ "server-1").Reachable { server := .new "server-1" } := .start rfl
  obtain ⟨r, hr, hp⟩ := hstart.exists_of_exec
    (fun _ _ _ hnext => ⟨trivial, BookedServer.next_step hnext⟩)
    acknowledgedByOther BookedServer.onlyWithWorker (by decide)
  exact ⟨r, hp, (requests_are_accounted_for hr).2⟩

end Runs
end NomadRs
