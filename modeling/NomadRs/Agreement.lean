import NomadRs.Choice
import NomadRs.Drain

/-!
# The two schedulers agree

`drainQueue` and the passes of an undisturbed worker repeat one protocol over different interfaces,
the one over `Fsm::apply`, the other over proposals. From a well-formed store neither ever fails, so
each evaluation taken moves both on by the same plan. `drainLoop_of_pop` and
`workerIteration_of_pop` are the two steps, `worker_agrees_with_drain` is about whole runs.

The stores may list their jobs, allocations and evaluations in different orders.
-/

namespace NomadRs

/-- The same contents, with the nodes listed in the same order. -/
structure StateStore.SameNodes (s s' : StateStore) : Prop extends s.Relayout s' where
  nodes_eq : s'.nodes = s.nodes

section Congruence
variable {s s' : StateStore} [Crates] (F : Type) [F64 F]

omit [Crates] in
theorem StateStore.SameNodes.refl (s : StateStore) : s.SameNodes s :=
  ⟨⟨.refl _, .refl _, .refl _, .refl _⟩, rfl⟩

omit [Crates] in
theorem StateStore.SameNodes.commitAll (h : s.SameNodes s') (as : List Allocation) :
    (s.commitAll as).SameNodes (s'.commitAll as) := by
  induction as generalizing s s' with
  | nil => exact h
  | cons a as ih =>
      refine ih { h with allocs := ?_ }
      exact AList.perm_insert h.allocs

omit [Crates] in
theorem remaining_sameNodes (h : s.SameNodes s') (as : List Allocation) :
    remaining s' as = remaining s as := by
  have husage (id : NodeId) : usage s' id = usage s id := by
    rw [usage_eq_sumBy, usage_eq_sumBy, h.allocs.sumBy_eq]
  simp only [remaining, StateStore.listNodes, h.nodes_eq, freeCapacity_eq, husage]

omit [Crates] in
theorem bonusFor_sameNodes (h : s.SameNodes s') (group : TaskGroup) (node : Node) :
    bonusFor F group node s' = bonusFor F group node s := by
  have hlive := h.allocs.values_perm.filter fun a => isLive a.clientStatus
  have hsame (p : Allocation → Bool) := (hlive.filter p).length_eq
  have hstep : spreadStep F node s' = spreadStep F node s := by
    funext bonus spread
    simp only [spreadStep, StateStore.listAllocs, StateStore.listNodes, StateStore.getNode,
      h.nodes_eq, hlive.length_eq, hsame]
  rw [bonusFor, bonusFor, hstep]

theorem processEval_sameNodes (h : s.SameNodes s') (hs : s.WellFormed) (eval : Evaluation) :
    processEval F eval s' = processEval F eval s := by
  have hjob : s'.getJob eval.jobId = s.getJob eval.jobId := (h.jobs.lookup_eq _).symm
  have hrank (group : TaskGroup) (free : FreeList) : rank F s' group (groupDemand group) free =
      rank F s group (groupDemand group) free := by
    simp only [rank, bonusFor_sameNodes F h]
  have hnext (job : Job) : placeNext F s' eval job = placeNext F s eval job := by
    funext as group
    simp only [placeNext, remaining_sameNodes h, choice, hrank]
  cases hj : s.getJob eval.jobId with
  | none => simp only [processEval, hjob, hj]
  | some job =>
      have hallocs := processEval_allocs F (hs.relayout h.toRelayout) (hjob.trans hj)
      rw [hnext, ← processEval_allocs F hs hj] at hallocs
      exact congrArg Plan.mk hallocs

omit [Crates] in
theorem parks_sameNodes (h : s.SameNodes s') (eval : Evaluation) (plan : Plan) :
    parks eval plan s' = parks eval plan s := by
  rw [parks, parks, desiredCount, desiredCount, StateStore.getJob, StateStore.getJob,
    h.jobs.lookup_eq]

end Congruence

/-! ## One evaluation -/

/-- The queue after one of its evaluations is taken, parked if asked, and acknowledged. -/
def EvalQueue.settle (q : EvalQueue) (pe : PendingEval) (heap : List PendingEval) (park : Bool) :
    EvalQueue :=
  { q with
    heap
    inFlight := q.inFlight.erase pe.eval.id
    blocked := if park then q.blocked ++ [pe.eval] else q.blocked }

theorem EvalQueue.ack_park (q : EvalQueue) (pe delivered : PendingEval) (heap : List PendingEval)
    (park : Bool) :
    (if park then
      EvalQueue.block { q with heap, inFlight := q.inFlight.insert pe.eval.id delivered } pe.eval
      else { q with heap, inFlight := q.inFlight.insert pe.eval.id delivered }).ack pe.eval.id =
    q.settle pe heap park := by
  cases park <;> simp [ack, block, settle]

theorem EvalQueue.reapExpired_of_nil {q : EvalQueue} {clock : EvalId → Instant}
    {timeout : Duration} (h : q.expiredIds clock timeout = []) :
    (q.reapExpired clock timeout).2 = q := by
  rw [reapExpired, h]
  rfl

section Steps
variable (F : Type) [F64 F] [Crates] {fsm : Fsm} {pe : PendingEval} {heap : List PendingEval}

theorem drainLoop_of_nil (clock : ℕ → Instant) (placed : ℕ) {q : EvalQueue} (hq : q.heap = []) :
    drainLoop F clock placed q fsm = { result := .ok placed, queue := q, fsm } := by
  have hdeq : q.dequeue (clock q.heap.length) = (none, q) := by
    rw [EvalQueue.dequeue, popGreatest_eq_none.2 hq]
  rw [drainLoop]
  split
  next queue h =>
    rw [hdeq] at h
    cases h
    rfl
  next eval queue h =>
    rw [hdeq] at h
    cases h

omit F [F64 F] [Crates] in
theorem parks_commitAll (s : StateStore) (eval : Evaluation) (plan : Plan)
    (as : List Allocation) : parks eval plan (s.commitAll as) = parks eval plan s := by
  rw [parks, parks, desiredCount_congr (s.commitAll_jobs as)]

theorem drainLoop_of_pop (clock : ℕ → Instant) (placed : ℕ) {q : EvalQueue}
    (hs : fsm.state.WellFormed) (hpop : popGreatest PendingEval.cmp q.heap = some (pe, heap))
    {plan : Plan} (hplan : plan = processEval F pe.eval fsm.state) :
    drainLoop F clock placed q fsm =
      let rest := drainLoop F clock (placed + plan.allocs.length)
        (q.settle pe heap (parks pe.eval plan fsm.state)) ⟨fsm.state.commitAll plan.allocs⟩
      { rest with acked := (pe.eval, plan) :: rest.acked } := by
  subst hplan
  obtain ⟨delivered, hdeq⟩ : ∃ delivered, q.dequeue (clock q.heap.length) =
      (some pe.eval, { q with heap, inFlight := q.inFlight.insert pe.eval.id delivered }) :=
    ⟨_, by rw [EvalQueue.dequeue, hpop]⟩
  rw [drainLoop]
  split
  next queue h =>
    rw [hdeq] at h
    cases h
  next eval queue h =>
    rw [hdeq] at h
    cases h
    simp only [processAndApply_of_wellFormed F hs, parks_commitAll, EvalQueue.ack_park]

theorem workerIteration_of_nil (clock : EvalId → Instant) (now : Instant) {sh : Shared}
    (hdown : sh.shutdown = false) (hlead : sh.raft.isLeader = true)
    (hexp : sh.queue.expiredIds clock visibility = []) (hq : sh.queue.heap = []) :
    workerIteration F clock now sh = (.idle, sh) := by
  have hreap := EvalQueue.reapExpired_of_nil hexp
  have hdeq : sh.queue.dequeue now = (none, sh.queue) := by
    rw [EvalQueue.dequeue, popGreatest_eq_none.2 hq]
  rw [workerIteration, if_neg (by simp [hdown]), if_neg (by simp [hlead]), hreap]
  simp only [hdeq]

theorem workerIteration_of_pop (clock : EvalId → Instant) (now : Instant) {sh : Shared}
    (hdown : sh.shutdown = false) (hlead : sh.raft.isLeader = true)
    (hexp : sh.queue.expiredIds clock visibility = []) (hs : sh.raft.state.WellFormed)
    (hpop : popGreatest PendingEval.cmp sh.queue.heap = some (pe, heap))
    {plan : Plan} (hplan : plan = processEval F pe.eval sh.raft.state) :
    workerIteration F clock now sh = (.acked pe.eval plan, { sh with
      raft := sh.raft.commitAll plan.allocs
      queue := sh.queue.settle pe heap (parks pe.eval plan sh.raft.state) }) := by
  subst hplan
  have hreap := EvalQueue.reapExpired_of_nil hexp
  obtain ⟨delivered, hdeq⟩ : ∃ delivered, sh.queue.dequeue now = (some pe.eval,
      { sh.queue with heap, inFlight := sh.queue.inFlight.insert pe.eval.id delivered }) :=
    ⟨_, by rw [EvalQueue.dequeue, hpop]⟩
  rw [workerIteration, if_neg (by simp [hdown]), if_neg (by simp [hlead]), hreap]
  simp only [hdeq, commitPlan_of_valid hlead (processEval_valid F hs), RaftNode.state_commitAll,
    parks_commitAll, EvalQueue.ack_park]

/-! ## Whole runs -/

/-- The clock of one pass, for the entries in flight and for the delivery. -/
abbrev Reading := (EvalId → Instant) × Instant

/-- Undisturbed passes, one for each reading, until one finds nothing to do. -/
def workerRun : List Reading → Shared → List Pass × Shared
  | [], sh => ([], sh)
  | (clock, now) :: readings, sh =>
    match workerIteration F clock now sh with
    | (.idle, sh') => ([.idle], sh')
    | (pass, sh') =>
      let rest := workerRun readings sh'
      (pass :: rest.1, rest.2)

variable {F}

omit F [F64 F] [Crates] in
theorem EvalQueue.expiredIds_settle {q : EvalQueue} {clock : EvalId → Instant}
    {timeout : Duration} (h : q.expiredIds clock timeout = []) (park : Bool) :
    (q.settle pe heap park).expiredIds clock timeout = [] := by
  rw [List.eq_nil_iff_forall_not_mem] at h ⊢
  intro id hid
  obtain ⟨delivered, hlookup, hexp⟩ := mem_expiredIds.1 hid
  exact h id (mem_expiredIds.2 ⟨delivered, (HashMap.lookup_erase_eq_some.1 hlookup).2, hexp⟩)

def Drained.placements (drained : Drained) : List Allocation :=
  drained.acked.flatMap fun p => p.2.allocs

/-- A drain and a worker at the same point of their runs, the worker with these readings to come. -/
structure InStep (readings : List Reading) (fsm : Fsm) (sh : Shared) : Prop where
  wellFormed : fsm.state.WellFormed
  same : fsm.state.SameNodes sh.raft.state
  running : sh.shutdown = false
  leader : sh.raft.isLeader = true
  unexpired : ∀ r ∈ readings, sh.queue.expiredIds r.1 visibility = []

theorem InStep.next {r : Reading} {readings : List Reading} {sh : Shared}
    (h : InStep (r :: readings) fsm sh) (park : Bool) {plan : Plan}
    (hplan : plan = processEval F pe.eval fsm.state) :
    InStep readings ⟨fsm.state.commitAll plan.allocs⟩ { sh with
      raft := sh.raft.commitAll plan.allocs, queue := sh.queue.settle pe heap park } where
  wellFormed := h.wellFormed.commitAll (hplan ▸ processEval_valid F h.wellFormed)
  same := h.same.commitAll plan.allocs
  running := h.running
  leader := h.leader
  unexpired r hr := EvalQueue.expiredIds_settle (h.unexpired r (List.mem_cons_of_mem _ hr)) park

/-- In step, the worker acknowledges what the drain acknowledges, until it finds nothing pending. It
leaves the same queue, and the log has grown by the placements. -/
theorem InStep.drainLoop_agrees {readings : List Reading} {sh : Shared}
    (h : InStep readings fsm sh) (clock : ℕ → Instant) (placed : ℕ)
    (hlen : sh.queue.heap.length < readings.length) :
    ∃ drained, drained = drainLoop F clock placed sh.queue fsm ∧
      drained.result = .ok (placed + drained.placements.length) ∧
      drained.fsm.state = fsm.state.commitAll drained.placements ∧
      workerRun F readings sh = (drained.acked.map (fun p => .acked p.1 p.2) ++ [.idle],
        { sh with raft := sh.raft.commitAll drained.placements, queue := drained.queue }) := by
  induction readings generalizing sh fsm placed with
  | nil => simp at hlen
  | cons r readings ih =>
      have hnow := h.unexpired r List.mem_cons_self
      cases hpop : popGreatest PendingEval.cmp sh.queue.heap with
      | none =>
          have hq := popGreatest_eq_none.1 hpop
          refine ⟨_, rfl, ?_⟩
          rw [drainLoop_of_nil F clock placed hq, workerRun,
            workerIteration_of_nil F r.1 r.2 h.running h.leader hnow hq]
          simp [Drained.placements, RaftNode.commitAll, RaftNode.state]
      | some next =>
          obtain ⟨pe, heap⟩ := next
          obtain ⟨plan, hplan⟩ : ∃ plan, plan = processEval F pe.eval fsm.state := ⟨_, rfl⟩
          have hplan' : plan = processEval F pe.eval sh.raft.state := by
            rw [hplan, processEval_sameNodes F h.same h.wellFormed]
          have hlen' : heap.length < readings.length := by
            have hcount := (popGreatest_perm hpop).length_eq
            rw [List.length_cons] at hcount hlen
            omega
          obtain ⟨drained, hdrained, hresult, hstate, hrun⟩ :=
            ih (h.next (parks pe.eval plan fsm.state) hplan) (placed + plan.allocs.length) hlen'
          have hdrain := drainLoop_of_pop F clock placed h.wellFormed hpop hplan
          simp only [← hdrained] at hdrain
          have hplacements : Drained.placements { drained with
              acked := (pe.eval, plan) :: drained.acked } = plan.allocs ++ drained.placements :=
            List.flatMap_cons
          refine ⟨_, rfl, ?_⟩
          rw [hdrain, hplacements]
          refine ⟨?_, ?_, ?_⟩
          · rw [List.length_append, ← Nat.add_assoc]
            exact hresult
          · rw [StateStore.commitAll_append]
            exact hstate
          · rw [workerRun, workerIteration_of_pop F r.1 r.2 h.running h.leader hnow
              (h.wellFormed.relayout h.same.toRelayout) hpop hplan', parks_sameNodes h.same]
            simp only [hrun, RaftNode.commitAll_append, List.map_cons, List.cons_append]

/-- The worker, undisturbed until it finds nothing pending, and the drain acknowledge the same
evaluations with the same plans and leave the same queue and the same contents of the store. The log
grows by the placements in their order. -/
theorem worker_agrees_with_drain {readings : List Reading} {sh : Shared} (clock : ℕ → Instant)
    (h : storeSystem.Reachable fsm) (hsame : fsm.state.SameNodes sh.raft.state)
    (hdown : sh.shutdown = false) (hlead : sh.raft.isLeader = true)
    (hexp : ∀ r ∈ readings, sh.queue.expiredIds r.1 visibility = [])
    (hlen : sh.queue.heap.length < readings.length) :
    ∃ drained worked, drained = drainQueue F clock sh.queue fsm ∧
      worked = workerRun F readings sh ∧
      drained.result = .ok drained.placements.length ∧
      worked.1 = drained.acked.map (fun p => .acked p.1 p.2) ++ [.idle] ∧
      worked.2.queue = drained.queue ∧
      worked.2.raft.log = sh.raft.log ++ drained.placements.map .upsertAlloc ∧
      worked.2.raft.state = sh.raft.state.commitAll drained.placements ∧
      drained.fsm.state = fsm.state.commitAll drained.placements ∧
      drained.fsm.state.SameNodes worked.2.raft.state := by
  have hstep : InStep readings fsm sh :=
    ⟨fsm.wellFormed_of_reachable h, hsame, hdown, hlead, hexp⟩
  obtain ⟨drained, hdrained, hresult, hstate, hrun⟩ := hstep.drainLoop_agrees (F := F) clock 0 hlen
  refine ⟨drained, _, hdrained, rfl, ?_⟩
  rw [hrun]
  refine ⟨by rw [hresult, Nat.zero_add], rfl, rfl, rfl, rfl, hstate, ?_⟩
  rw [hstate]
  exact hsame.commitAll _

end Steps

section Runs
attribute [local instance] Crates.literal

def threePasses : List Reading := [(fun _ => 0, 0), (fun _ => 0, 0), (fun _ => 0, 0)]

/-- Two of the three instances have room, and a second evaluation of the job waits. -/
def roomForOneEval : Shared :=
  { roomForTwo with queue := roomForTwo.queue.enqueue (webEval "eval-2") }

/-- The first evaluation places two instances, the second none: it is blocked. -/
theorem worker_agrees_with_drain_roomForOneEval :
    (workerRun ℚ threePasses roomForOneEval).1 =
      [.acked (webEval "eval-1") twoPlaced, .acked (webEval "eval-2") {}, .idle] ∧
    twoPlaced.allocs.length = 2 ∧
    (workerRun ℚ threePasses roomForOneEval).2.queue.blocked = [webEval "eval-2"] ∧
    (drainQueue ℚ (fun _ => 0) roomForOneEval.queue roomForOneEval.raft.fsm).queue.blocked =
      [webEval "eval-2"] := by
  have hreach : storeSystem.Reachable roomForOneEval.raft.fsm :=
    Fsm.registered_reachable [oneNode] (webJob 3)
  have hexp : ∀ r ∈ threePasses, roomForOneEval.queue.expiredIds r.1 visibility = [] := by decide
  obtain ⟨drained, worked, hdrained, rfl, _, hpasses, hqueue, _⟩ := worker_agrees_with_drain
    (F := ℚ) (fun _ => 0) hreach (.refl _) rfl rfl hexp (by decide)
  have hacked : drained.acked = [(webEval "eval-1", twoPlaced), (webEval "eval-2", {})] := by
    rw [hdrained]
    decide +kernel
  have hblocked : drained.queue.blocked = [webEval "eval-2"] := by
    rw [hdrained]
    decide +kernel
  rw [hpasses, hqueue, ← hdrained, hacked]
  exact ⟨rfl, by decide, hblocked, hblocked⟩

end Runs
end NomadRs
