import NomadRs.CommitSafety
import NomadRs.Ownership
import NomadRs.StoreLog

/-!
# Where the log of a server comes from

Workers plan from one state and commit into a later one, and requests come in between, so the log
of a server does not tell by itself how its entries came about. `Written` says what it can look
like: it is put together from commands of requests and from whole plans, each of them computed from
the state that an earlier part of the log amounts to, for an evaluation that a request in that part
asked for. Every run of a server keeps to it (`log_is_written`), so whatever is stored can be traced
back to the state it was decided in (`placements_are_justified`).
-/

namespace NomadRs
open StateStore

/-- A log amounts to a state, in some order of iteration. -/
def StateOf (log : List Command) (s : StateStore) : Prop :=
  ∃ fsm, Fsm.new.replay log = .ok fsm ∧ fsm.state.Relayout s

/-- The evaluations that the handlers of logged requests make. -/
inductive Requested (log : List Command) : Evaluation → Prop
  | registered (job : Job) (nanos : ℕ) : .upsertJob job ∈ log → Requested log
      { id := evalIdFor job.name nanos, jobId := job.name, priority := job.priority
        trigger := .jobRegister, status := .pending }
  | deregistered (name : String) (nanos : ℕ) : .deregisterJob name ∈ log → Requested log
      { id := evalIdFor name nanos, jobId := name, priority := 50
        trigger := .jobDeregister, status := .pending }

section Logs
variable {log : List Command} {s s' : StateStore} {c : Command}

/-! ## States of logs -/

theorem Fsm.replay_eq_ok {fsm fsm' : Fsm} (h : fsm.replay log = .ok fsm') :
    fsm.applyAll log = fsm' ∧ ∀ c ∈ log, c.check = .ok () := by
  induction log generalizing fsm with
  | nil =>
      cases h
      exact ⟨rfl, by simp⟩
  | cons c log ih =>
      rw [Fsm.replay] at h
      rcases fsm.apply_cases c with ⟨haccepts, happly⟩ | ⟨_, e, happly⟩ <;> rw [happly] at h
      · obtain ⟨hall, hcheck⟩ := ih h
        refine ⟨?_, List.forall_mem_cons.2 ⟨(accepts_iff.1 haccepts).1, hcheck⟩⟩
        change ((fsm.apply c).2).applyAll log = fsm'
        rwa [happly]
      · cases h

namespace StateOf

theorem new : StateOf [] .new := ⟨.new, rfl, relayout_of_read fun _ => rfl⟩

theorem relayout (h : StateOf log s) (hs : s.Relayout s') : StateOf log s' := by
  obtain ⟨fsm, hreplay, hfsm⟩ := h
  exact ⟨fsm, hreplay, relayout_of_read fun k => (hfsm.read_eq k).trans (hs.read_eq k)⟩

theorem applied (h : StateOf log s) (hc : s.Accepts c) : StateOf (log ++ [c]) (s.applied c) := by
  obtain ⟨fsm, hreplay, hfsm⟩ := h
  have haccepts : fsm.state.Accepts c := by
    rw [accepts_iff] at hc ⊢
    refine ⟨hc.1, fun name hname => ?_⟩
    rw [getJob, hfsm.jobs.lookup_eq]
    exact hc.2 name hname
  refine ⟨⟨fsm.state.applied c⟩, ?_, relayout_of_read fun k => ?_⟩
  · rw [Fsm.replay_append, hreplay]
    change fsm.replay [c] = _
    rcases fsm.apply_cases c with ⟨_, happly⟩ | ⟨hrejected, _⟩
    · simp only [Fsm.replay, happly]
    · exact absurd haccepts hrejected
  · by_cases hk : c.key = k
    · subst hk
      simp only [read_applied_key]
    · rw [read_applied_of_ne hk, read_applied_of_ne hk, hfsm.read_eq]

theorem commitAll {as : List Allocation} (h : StateOf log s)
    (has : ∀ a ∈ as, a.validate = .ok ()) :
    StateOf (log ++ as.map .upsertAlloc) (s.commitAll as) := by
  induction as generalizing log s with
  | nil => simpa using h
  | cons a as ih =>
      obtain ⟨ha, has⟩ := List.forall_mem_cons.1 has
      have hfirst : StateOf (log ++ [.upsertAlloc a]) (s.applied (.upsertAlloc a)) := h.applied ha
      have hrest := ih hfirst has
      rwa [List.append_assoc] at hrest

theorem wellFormed (h : StateOf log s) : s.WellFormed := by
  obtain ⟨fsm, hreplay, hfsm⟩ := h
  obtain ⟨rfl, _⟩ := Fsm.replay_eq_ok hreplay
  have hnew : storeSystem.Reachable .new := .start rfl
  have hreach := Fsm.reachable_applyAll hnew log
  exact (Fsm.wellFormed_of_reachable hreach).relayout hfsm

theorem read_eq (h : StateOf log s) (k : EntityKey) :
    s.read k = (log.filter fun c => c.key = k).getLast?.bind Command.value := by
  obtain ⟨fsm, hreplay, hfsm⟩ := h
  obtain ⟨rfl, hcheck⟩ := Fsm.replay_eq_ok hreplay
  have hwrites : keyed.writes k log = log.filter fun c => c.key = k := by
    refine List.filter_congr fun c hc => ?_
    rw [show keyed.target c = c.target from rfl, Command.target, hcheck c hc]
    simp
  rw [← hfsm.read_eq, Fsm.state_applyAll]
  refine (keyed.read_applyAll _ _ k).trans ?_
  rw [hwrites]
  cases (log.filter fun c => c.key = k).getLast? with
  | none => cases k <;> rfl
  | some c => rfl

theorem exists_of_read (h : StateOf log s) {k : EntityKey} {entity : Entity}
    (hk : s.read k = some entity) : ∃ c ∈ log, c.key = k ∧ c.value = some entity := by
  rw [h.read_eq, Option.bind_eq_some_iff] at hk
  obtain ⟨c, hlast, hvalue⟩ := hk
  obtain ⟨hc, hkey⟩ := List.mem_filter.1 (List.mem_of_getLast? hlast)
  exact ⟨c, hc, of_decide_eq_true hkey, hvalue⟩

theorem read_isSome (h : StateOf log s) (hc : c ∈ log)
    (hkept : ∀ d : Command, d.key = c.key → d.value.isSome) : (s.read c.key).isSome := by
  have hmem : c ∈ log.filter fun d => d.key = c.key := List.mem_filter.2 ⟨hc, by simp⟩
  rw [h.read_eq, Option.isSome_bind]
  cases hlast : (log.filter fun d => d.key = c.key).getLast? with
  | none =>
      rw [List.getLast?_eq_none_iff.1 hlast] at hmem
      cases hmem
  | some d =>
      have hkey := (List.mem_filter.1 (List.mem_of_getLast? hlast)).2
      exact hkept d (of_decide_eq_true hkey)

end StateOf

end Logs

/-! ## Evaluations of logged requests -/

section Requests
variable {log log' : List Command} {eval : Evaluation}

theorem Requested.named (h : Requested log eval) : eval.Named := by
  cases h with
  | registered job nanos _ => exact ⟨nanos, rfl⟩
  | deregistered name nanos _ => exact ⟨nanos, rfl⟩

theorem Requested.mono (h : Requested log eval) (hlog : log <+: log') : Requested log' eval := by
  cases h with
  | registered job nanos hjob => exact .registered job nanos (hlog.subset hjob)
  | deregistered name nanos hname => exact .deregistered name nanos (hlog.subset hname)

theorem EvalQueue.All.imp {P Q : Evaluation → Prop} {q : EvalQueue} (h : q.All P)
    (hPQ : ∀ e, P e → Q e) : q.All Q :=
  ⟨fun pe hpe => hPQ _ (h.heap pe hpe), fun id pe hpe => hPQ _ (h.inFlight id pe hpe),
    fun e he => hPQ _ (h.blocked e he)⟩

/-- What is left of a request acts on an entity that the log has a command about. -/
def FollowUp.Logged (log : List Command) : FollowUp → Prop
  | .registered name priority => ∃ job, .upsertJob job ∈ log ∧ job.name = name ∧
      job.priority = priority
  | .deregistered name => .deregisterJob name ∈ log
  | .unblock | .dequeue => True

theorem FollowUp.Logged.mono {followUp : FollowUp} (h : followUp.Logged log)
    (hlog : log <+: log') : followUp.Logged log' := by
  cases followUp with
  | registered name priority =>
      obtain ⟨job, hjob, hrest⟩ := h
      exact ⟨job, hlog.subset hjob, hrest⟩
  | deregistered name => exact hlog.subset h
  | unblock => trivial
  | dequeue => trivial

theorem FollowUp.Logged.run {followUp : FollowUp} {q : EvalQueue} (h : followUp.Logged log)
    (hq : q.All (Requested log)) (nanos : ℕ) (now : Instant) :
    (followUp.run q nanos now).2.All (Requested log) := by
  cases followUp with
  | registered name priority =>
      obtain ⟨job, hjob, rfl, rfl⟩ := h
      exact hq.push (.registered job nanos hjob) 0
  | deregistered name => exact hq.push (.deregistered name nanos h) 0
  | unblock => exact hq.unblockAll
  | dequeue => exact (hq.dequeue now).1

theorem Request.followUp_logged {request : Request} {c : Command} (h : request.command = some c) :
    request.followUp.Logged (log ++ [c]) := by
  cases request with
  | jobRegister job =>
      cases h
      exact ⟨job, by simp, rfl, rfl⟩
  | jobDeregister name =>
      cases h
      exact List.mem_append_right _ List.mem_cons_self
  | nodeRegister node => trivial
  | evalDequeue schedulers => trivial

end Requests

/-! ## What a log can look like -/

section Written
variable (F : Type) [F64 F] [Crates]

/-- A plan is what the scheduler makes of a requested evaluation in a state of this log. -/
structure Planned (log : List Command) (eval : Evaluation) (s : StateStore) (plan : Plan) :
    Prop where
  state : StateOf log s
  requested : Requested log eval
  plan : plan = processEval F eval s

/-- Commands of requests and whole plans, each planned from what was there at some time. -/
inductive Written : List Command → Prop
  | nil : Written []
  | request {log : List Command} {request : Request} {c : Command} :
      Written log → request.command = some c → Written (log ++ [c])
  | plan {log before : List Command} {eval : Evaluation} {s : StateStore} {plan : Plan} :
      Written log → Written before → before <+: log → Planned F before eval s plan →
      Written (log ++ plan.allocs.map .upsertAlloc)

def WorkerPc.Traced (log : List Command) : WorkerPc → Prop
  | .plan eval | .decide eval _ | .block eval | .ack eval | .nack eval => Requested log eval
  | .commit eval p => Requested log eval ∧
      ∃ before s, Written F before ∧ before <+: log ∧ Planned F before eval s p
  | _ => True

structure Shared.Traced (sh : Shared) : Prop where
  written : Written F sh.raft.log
  state : StateOf sh.raft.log sh.raft.state
  leader : sh.raft.isLeader = true
  queue : sh.queue.All (Requested sh.raft.log)

structure Server.Traced (s : Server) : Prop where
  shared : s.toShared.Traced F
  workers : ∀ i, (s.workers i).Traced F s.raft.log
  requests : ∀ followUp ∈ s.requests, followUp.Logged s.raft.log

variable {F} {log log' : List Command} {eval : Evaluation} {st : StateStore} {plan : Plan}

theorem Planned.placed (h : Planned F log eval st plan) : ∀ a ∈ plan.allocs, a.Placed := by
  rw [h.plan]
  exact processEval_placed F h.state.wellFormed h.requested.named

theorem WorkerPc.Traced.mono {pc : WorkerPc} (h : pc.Traced F log) (hlog : log <+: log') :
    pc.Traced F log' := by
  cases pc with
  | commit eval plan =>
      obtain ⟨hreq, before, st, hwritten, hbefore, hplan⟩ := h
      exact ⟨hreq.mono hlog, before, st, hwritten, hbefore.trans hlog, hplan⟩
  | plan eval => exact Requested.mono h hlog
  | decide eval plan => exact Requested.mono h hlog
  | block eval => exact Requested.mono h hlog
  | ack eval => exact Requested.mono h hlog
  | nack eval => exact Requested.mono h hlog
  | _ => trivial

theorem WorkerPc.Traced.step (clock : EvalId → Instant) (now : Instant) {pc : WorkerPc}
    {sh : Shared} (hpc : pc.Traced F sh.raft.log) (h : sh.Traced F) :
    sh.raft.log <+: (pc.step F clock now sh).2.raft.log ∧
      (pc.step F clock now sh).1.Traced F (pc.step F clock now sh).2.raft.log ∧
      (pc.step F clock now sh).2.Traced F := by
  have hself : sh.raft.log <+: sh.raft.log := List.prefix_rfl
  cases pc with
  | idle => exact ⟨hself, trivial, h⟩
  | top =>
      simp only [WorkerPc.step]
      split <;> exact ⟨hself, trivial, h⟩
  | gate =>
      simp only [WorkerPc.step]
      split <;> exact ⟨hself, trivial, h⟩
  | reap => exact ⟨hself, trivial, { h with queue := h.queue.foldl_nack _ }⟩
  | dequeue =>
      obtain ⟨hqueue, heval⟩ := h.queue.dequeue now
      simp only [WorkerPc.step]
      rcases hdeq : sh.queue.dequeue now with ⟨_ | eval, queue⟩ <;> rw [hdeq] at hqueue heval
      · exact ⟨hself, trivial, { h with queue := hqueue }⟩
      · exact ⟨hself, heval eval rfl, { h with queue := hqueue }⟩
  | plan eval =>
      have hplan : Planned F sh.raft.log eval sh.raft.state _ := ⟨h.state, hpc, rfl⟩
      exact ⟨hself, ⟨hpc, sh.raft.log, sh.raft.state, h.written, hself, hplan⟩, h⟩
  | commit eval plan =>
      obtain ⟨hreq, before, st, hwritten, hbefore, hplan⟩ := hpc
      have hvalid : ∀ a ∈ plan.allocs, a.validate = .ok () := fun a ha => (hplan.placed a ha).valid
      have hgrown : sh.raft.log <+: sh.raft.log ++ plan.allocs.map .upsertAlloc :=
        List.prefix_append ..
      simp only [WorkerPc.step]
      rw [commitPlan_of_valid h.leader hvalid]
      refine ⟨hgrown, hreq.mono hgrown, ?_⟩
      exact ⟨.plan h.written hwritten hbefore hplan, h.state.commitAll hvalid, h.leader,
        h.queue.imp fun _ he => he.mono hgrown⟩
  | decide eval plan =>
      simp only [WorkerPc.step]
      split <;> exact ⟨hself, hpc, h⟩
  | block eval => exact ⟨hself, hpc, { h with queue := h.queue.block hpc }⟩
  | ack eval => exact ⟨hself, trivial, { h with queue := h.queue.ack _ }⟩
  | nack eval => exact ⟨hself, trivial, { h with queue := h.queue.nack _ }⟩
  | done => exact ⟨hself, trivial, h⟩

namespace Server
variable {s s' : Server} {nodeName : String}

theorem Traced.new : (new nodeName).Traced F where
  shared := ⟨.nil, .new, rfl, .new⟩
  workers _ := trivial
  requests := by simp [Server.new]

theorem Traced.workers_update (h : s.Traced F) (hlog : s.raft.log <+: log) (i : ℕ) {pc : WorkerPc}
    (hpc : pc.Traced F log) : ∀ j, (Function.update s.workers i pc j).Traced F log := by
  intro j
  by_cases hj : j = i
  · rw [hj, Function.update_self]
    exact hpc
  · rw [Function.update_of_ne hj]
    exact (h.workers j).mono hlog

theorem Traced.begin (h : s.Traced F) (request : Request) :
    (s.beginRequest request).Traced F := by
  unfold beginRequest
  rcases request.begin_cases s.raft with ⟨c, hc, hacc, hbegin⟩ | ⟨hc, hbegin⟩ | ⟨hnone, hraft⟩
  · have hgrown : s.raft.log <+: s.raft.log ++ [c] := List.prefix_append ..
    rw [hbegin]
    refine ⟨⟨h.shared.written.request hc, h.shared.state.applied hacc, h.shared.leader,
      h.shared.queue.imp fun _ he => he.mono hgrown⟩, fun i => (h.workers i).mono hgrown, ?_⟩
    refine List.forall_mem_append.2 ⟨fun followUp hf => (h.requests followUp hf).mono hgrown, ?_⟩
    exact List.forall_mem_singleton.2 (Request.followUp_logged hc)
  · rw [hbegin]
    refine ⟨{ h.shared with }, h.workers, List.forall_mem_append.2 ⟨h.requests, ?_⟩⟩
    refine List.forall_mem_singleton.2 ?_
    cases request with
    | evalDequeue schedulers => exact trivial
    | _ => cases hc
  · rw [hraft]
    refine ⟨{ h.shared with }, h.workers, List.forall_mem_append.2 ⟨h.requests, ?_⟩⟩
    split
    next followUp hok => exact absurd hok (hnone followUp)
    next => simp

theorem Traced.step (h : s.Traced F) {event : ServerEvent} (hstep : s.Step F event s') :
    s'.Traced F := by
  rcases hstep with ⟨hnext⟩ | ⟨state, inFlight, hstate, hflight⟩
  · cases event with
    | run =>
        cases hnext
        unfold Server.run
        split
        · exact h
        · exact ⟨{ h.shared with }, h.workers_update List.prefix_rfl _ trivial, h.requests⟩
    | stop =>
        cases hnext
        exact ⟨{ h.shared with }, h.workers, h.requests⟩
    | worker i clock now =>
        cases hnext
        unfold Server.work
        split
        · exact ⟨h.shared, h.workers_update List.prefix_rfl _ trivial, h.requests⟩
        · obtain ⟨hgrown, hpc, hsh⟩ := (h.workers i).step clock now h.shared
          exact ⟨hsh, h.workers_update hgrown _ hpc,
            fun followUp hf => (h.requests followUp hf).mono hgrown⟩
    | begin request =>
        cases hnext
        exact h.begin request
    | finish j nanos now =>
        obtain ⟨followUp, hj, rfl⟩ := Option.map_eq_some_iff.1 hnext
        have hlogged := h.requests followUp (List.mem_of_getElem? hj)
        exact ⟨{ h.shared with queue := hlogged.run h.shared.queue nanos now }, h.workers,
          fun f hf => h.requests f ((List.eraseIdx_sublist ..).subset hf)⟩
    | relayout => cases hnext
  · exact ⟨⟨h.shared.written, h.shared.state.relayout hstate, h.shared.leader,
      h.shared.queue.relayout hflight⟩, h.workers, h.requests⟩

theorem Traced.of_reachable (h : (system F nodeName).Reachable s) : s.Traced F :=
  h.invariant (Traced F) (by rintro _ rfl; exact .new) fun _ _ _ hs _ hstep => hs.step hstep

end Server

theorem Written.exists_planned (h : Written F log) {a : Allocation}
    (ha : .upsertAlloc a ∈ log) : ∃ before eval st plan, Written F before ∧ before <+: log ∧
      Planned F before eval st plan ∧ a ∈ plan.allocs := by
  induction h with
  | nil => cases ha
  | @request log request c _ hc ih =>
      rcases List.mem_append.1 ha with ha | ha
      · obtain ⟨before, eval, st, plan, hwritten, hbefore, hplan⟩ := ih ha
        exact ⟨before, eval, st, plan, hwritten, hbefore.trans (List.prefix_append ..), hplan⟩
      · rw [List.mem_singleton] at ha
        subst ha
        cases request <;> cases hc
  | @plan log before eval st plan _ hwritten hbefore hplan ih =>
      rcases List.mem_append.1 ha with ha | ha
      · obtain ⟨before', eval', st', plan', hwritten', hbefore', hplan'⟩ := ih ha
        exact ⟨before', eval', st', plan', hwritten', hbefore'.trans (List.prefix_append ..),
          hplan'⟩
      · obtain ⟨a', ha', heq⟩ := List.mem_map.1 ha
        cases heq
        exact ⟨before, eval, st, plan, hwritten, hbefore.trans (List.prefix_append ..), hplan, ha'⟩

omit [Crates] in
theorem StateOf.getNode_isSome {st' : StateStore} {id : NodeId} (h : StateOf log st)
    (h' : StateOf log' st') (hlog : log <+: log') (hid : (st.getNode id).isSome) :
    (st'.getNode id).isSome := by
  obtain ⟨node, hnode⟩ := Option.isSome_iff_exists.1 hid
  obtain ⟨c, hc, hkey, _⟩ := h.exists_of_read (k := .node id) (congrArg (Option.map _) hnode)
  have hread := h'.read_isSome (hlog.subset hc) fun d hd => by
    rw [hkey] at hd
    cases d <;> cases hd
    rfl
  rw [hkey] at hread
  exact Option.isSome_map ▸ hread

/-- Requests and workers may interleave as they like: the log is put together from commands of
requests and whole plans, each made from the state that an earlier part of the log amounts to for
an evaluation that part asks for. The log amounts to the state the server has, and what the server
has left to evaluate is what requests in the log have asked for. -/
theorem log_is_written {nodeName : String} {s : Server}
    (h : (Server.system F nodeName).Reachable s) :
    Written F s.raft.log ∧ StateOf s.raft.log s.raft.state ∧
      s.queue.All (Requested s.raft.log) :=
  have hs := Server.Traced.of_reachable h
  ⟨hs.shared.written, hs.shared.state, hs.shared.queue⟩

variable (F) in
/-- An allocation is what the scheduler planned for a job that was there, on a node that was there,
eligible and large enough for the plan. -/
def Justified (log : List Command) (alloc : Allocation) : Prop :=
  ∃ eval st job node, Planned F log eval st (processEval F eval st) ∧
    alloc ∈ (processEval F eval st).allocs ∧
    st.getJob eval.jobId = some job ∧ PlannedFor eval job alloc ∧
    st.getNode alloc.nodeId = some node ∧ nodeEligible node = true ∧
    usage st alloc.nodeId + planUsage alloc.nodeId (processEval F eval st).allocs ≤ node.resources

theorem Planned.justified (h : Planned F log eval st plan) {alloc : Allocation}
    (ha : alloc ∈ plan.allocs) : Justified F log alloc := by
  obtain ⟨hstate, hreq, rfl⟩ := h
  obtain ⟨node, hnode, helig, hroom⟩ := processEval_covered F hstate.wellFormed alloc ha
  cases hjob : st.getJob eval.jobId with
  | none =>
      rw [processEval_of_no_job F hjob] at ha
      cases ha
  | some job =>
      have hfor := processEval_planned F hstate.wellFormed hjob alloc ha
      exact ⟨eval, st, job, node, ⟨hstate, hreq, rfl⟩, ha, hjob, hfor, hnode, helig, hroom⟩

/-- Every stored allocation is justified by the log as it was at some earlier time. Since then its
node may have become ineligible, but it has not gone, and neither has any allocation that was ever
committed. -/
theorem placements_are_justified {nodeName : String} {s : Server}
    (h : (Server.system F nodeName).Reachable s) :
    (∀ alloc ∈ s.raft.state.listAllocs,
      (∃ before, before <+: s.raft.log ∧ Justified F before alloc) ∧
        (s.raft.state.getNode alloc.nodeId).isSome) ∧
    ∀ alloc, .upsertAlloc alloc ∈ s.raft.log →
      ∃ alloc', s.raft.state.getAlloc alloc.id = some alloc' ∧ alloc'.jobId = alloc.jobId := by
  have hs := (Server.Traced.of_reachable h).shared
  refine ⟨fun alloc ha => ?_, fun alloc ha => ?_⟩
  · obtain ⟨id, hid⟩ := HashMap.mem_values_iff.1 ha
    obtain ⟨c, hc, hkey, hvalue⟩ := hs.state.exists_of_read (k := .alloc id)
      (congrArg (Option.map _) hid)
    obtain rfl : c = .upsertAlloc alloc := by
      cases c <;> cases hvalue
      rfl
    obtain ⟨before, eval, st, plan, _, hbefore, hplan, ha⟩ := hs.written.exists_planned hc
    have hjust := hplan.justified ha
    refine ⟨⟨before, hbefore, hjust⟩, ?_⟩
    obtain ⟨eval', st', job, node, hplan', _, _, _, hnode, _⟩ := hjust
    exact hplan'.state.getNode_isSome hs.state hbefore (by rw [hnode]; rfl)
  · have hread := hs.state.read_isSome ha fun d hd => by
      cases d with
      | upsertAlloc alloc' => rfl
      | _ => cases hd
    obtain ⟨entity, hentity⟩ := Option.isSome_iff_exists.1 hread
    obtain ⟨alloc', halloc', _⟩ := Option.map_eq_some_iff.1 hentity
    refine ⟨alloc', halloc', ?_⟩
    have hmem : alloc' ∈ s.raft.state.listAllocs := HashMap.mem_values_of_lookup halloc'
    have hsound := Server.Sound.of_reachable (Server.fleet_reachable h)
    obtain ⟨_, _, _, _, _, _, hplan, ha⟩ := hs.written.exists_planned ha
    refine (hsound.shared.allocs alloc' hmem).jobId_eq (hplan.placed alloc ha).named ?_
    exact (hsound.shared.wellFormed.allocs _ _ halloc').1

end Written

/-! ## A plan that is committed after its node has been drained -/

section Runs
attribute [local instance] Crates.literal

def Server.staleLog (s : Server) : Bool :=
  match s.raft.log with
  | [.upsertNode _, .upsertJob _, .upsertNode node, .upsertAlloc _, .upsertAlloc _] => node.draining
  | _ => false

theorem exists_staleLog : ∃ s : Server,
    (Server.system ℚ "server-1").Reachable s ∧ s.staleLog = true :=
  Server.exists_reachable "server-1" (Server.toCommit 2 ++
    [.begin (.nodeRegister { oneNode with draining := true }), .worker 0 (fun _ => 0) 0])
    Server.staleLog (by decide)

theorem log_is_written_stale :
    ∃ s : Server, s.staleLog = true ∧ Written ℚ s.raft.log ∧ StateOf s.raft.log s.raft.state := by
  obtain ⟨s, hs, hstale⟩ := exists_staleLog
  have hlog := log_is_written hs
  exact ⟨s, hstale, hlog.1, hlog.2.1⟩

theorem placements_are_justified_stale : ∃ (s : Server) (alloc : Allocation),
    s.staleLog = true ∧ .upsertAlloc alloc ∈ s.raft.log ∧
      (s.raft.state.getAlloc alloc.id).isSome := by
  obtain ⟨s, hs, hstale⟩ := exists_staleLog
  obtain ⟨alloc, halloc⟩ : ∃ alloc, .upsertAlloc alloc ∈ s.raft.log := by
    unfold Server.staleLog at hstale
    split at hstale
    next alloc _ hlog => exact ⟨alloc, by simp [hlog]⟩
    next => cases hstale
  obtain ⟨alloc', halloc', _⟩ := (placements_are_justified hs).2 alloc halloc
  exact ⟨s, alloc, hstale, halloc, by rw [halloc']; rfl⟩

end Runs
end NomadRs
