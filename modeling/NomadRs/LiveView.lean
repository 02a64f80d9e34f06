import NomadRs.Agreement

/-!
# Finished allocations are invisible

The scheduler looks at jobs, nodes and live allocations. A record of an allocation that has come to
its end may stay in the store or be missing: no command is answered differently for it, no plan is
another one, and nothing that follows from either can tell the stores apart
(`finished_allocations_are_invisible`).
-/

namespace NomadRs

/-- The same jobs, nodes and live allocations. -/
structure SameLive (s s' : StateStore) : Prop where
  jobs : s.jobs.Relayout s'.jobs
  nodes : s'.nodes = s.nodes
  allocs : ∀ id, (s'.getAlloc id).filter (fun a => isLive a.clientStatus) =
    (s.getAlloc id).filter fun a => isLive a.clientStatus

section Congruence
variable {s s' : StateStore}

theorem sameLive_upsertAlloc {a : Allocation} (ha : isLive a.clientStatus = false)
    (hold : ∀ old, s.getAlloc a.id = some old → isLive old.clientStatus = false) :
    SameLive s (s.applied (.upsertAlloc a)) where
  jobs := .refl _
  nodes := rfl
  allocs id := by
    by_cases hid : id = a.id
    · subst hid
      have hnew : (s.applied (.upsertAlloc a)).getAlloc a.id = some a := AList.lookup_insert ..
      rw [hnew, Option.filter_some, ha]
      refine (Option.filter_eq_none_iff.2 fun old hstored => ?_).symm
      rw [hold old hstored]
      exact Bool.false_ne_true
    · exact congrArg (Option.filter _) (AList.lookup_insert_ne hid)

theorem SameLive.getJob_eq (h : SameLive s s') (name : String) : s'.getJob name = s.getJob name :=
  (h.jobs.lookup_eq name).symm

theorem SameLive.live_perm (h : SameLive s s') :
    (s.listAllocs.filter fun a => isLive a.clientStatus).Perm
      (s'.listAllocs.filter fun a => isLive a.clientStatus) := by
  have hlookup (st : StateStore) (id : AllocId) :
      (HashMap.filter (fun a => isLive a.clientStatus) st.allocs).lookup id =
        (st.getAlloc id).filter fun a => isLive a.clientStatus := by
    refine Option.ext fun a => ?_
    rw [HashMap.lookup_filter_eq_some, Option.filter_eq_some_iff]
    rfl
  have hrelayout := HashMap.relayout_of_lookup fun id =>
    (hlookup s id).trans ((h.allocs id).symm.trans (hlookup s' id).symm)
  have hvalues := hrelayout.values_perm
  rwa [HashMap.values_filter, HashMap.values_filter] at hvalues

theorem SameLive.usage_eq (h : SameLive s s') (id : NodeId) : usage s' id = usage s id := by
  have hon (st : StateStore) : liveOn st id =
      (st.listAllocs.filter fun a => isLive a.clientStatus).filter fun a => a.nodeId == id := by
    rw [liveOn, StateStore.allocsByNode, List.filter_filter, StateStore.listAllocs,
      List.filter_filter]
    simp only [Bool.and_comm]
  rw [usage, usage, hon, hon]
  exact (((h.live_perm.filter _).map _).sum_eq).symm

theorem SameLive.applied (h : SameLive s s') (c : Command) :
    SameLive (s.applied c) (s'.applied c) := by
  cases c with
  | upsertJob job => exact { h with jobs := AList.perm_insert h.jobs }
  | deregisterJob name => exact { h with jobs := AList.perm_erase h.jobs }
  | upsertNode node =>
      exact { h with nodes := by simp only [StateStore.applied, h.nodes] }
  | upsertAlloc alloc =>
      refine { h with allocs := fun id => ?_ }
      by_cases hid : id = alloc.id
      · subst hid
        simp [StateStore.applied, StateStore.getAlloc]
      · have hkept (st : StateStore) : (st.applied (.upsertAlloc alloc)).getAlloc id =
            st.getAlloc id := AList.lookup_insert_ne hid
        rw [hkept, hkept]
        exact h.allocs id
  | upsertEval eval => exact { h with }

theorem SameLive.commitAll (h : SameLive s s') (as : List Allocation) :
    SameLive (s.commitAll as) (s'.commitAll as) := by
  induction as generalizing s s' with
  | nil => exact h
  | cons a as ih => exact ih (h.applied (.upsertAlloc a))

/-- A command is answered alike, and leads to stores that are alike. -/
theorem SameLive.apply (h : SameLive s s') (c : Command) :
    (s'.apply c).1 = (s.apply c).1 ∧ SameLive (s.apply c).2 (s'.apply c).2 := by
  have happlied := h.applied c
  cases c with
  | upsertJob job =>
      simp only [StateStore.apply, StateStore.upsertJob]
      split
      · exact ⟨rfl, h⟩
      · exact ⟨rfl, happlied⟩
  | deregisterJob name =>
      have hjob := h.getJob_eq name
      rw [StateStore.getJob, StateStore.getJob] at hjob
      simp only [StateStore.apply, StateStore.deleteJob, hjob]
      split <;> exact ⟨rfl, happlied⟩
  | upsertNode node =>
      simp only [StateStore.apply, StateStore.upsertNode]
      split
      · exact ⟨rfl, h⟩
      · exact ⟨rfl, happlied⟩
  | upsertAlloc alloc =>
      simp only [StateStore.apply, StateStore.upsertAlloc]
      split
      · exact ⟨rfl, h⟩
      · exact ⟨rfl, happlied⟩
  | upsertEval eval =>
      simp only [StateStore.apply, StateStore.upsertEval]
      split
      · exact ⟨rfl, h⟩
      · exact ⟨rfl, happlied⟩

end Congruence

/-! ## Plans -/

section Plans
variable (F : Type) [F64 F] [Crates] {s s' : StateStore} {group : TaskGroup}

omit F [F64 F] [Crates] in
theorem SameLive.remaining_eq (h : SameLive s s') (as : List Allocation) :
    remaining s' as = remaining s as := by
  simp only [remaining, StateStore.listNodes, h.nodes, freeCapacity_eq, h.usage_eq]

omit [Crates] in
theorem SameLive.bonusFor_eq (h : SameLive s s') (node : Node) :
    bonusFor F group node s' = bonusFor F group node s := by
  have hsame (p : Allocation → Bool) := (h.live_perm.filter p).length_eq
  have hstep : spreadStep F node s' = spreadStep F node s := by
    funext bonus spread
    simp only [spreadStep, StateStore.listNodes, StateStore.getNode, h.nodes,
      h.live_perm.length_eq, hsame]
  rw [bonusFor, bonusFor, hstep]

theorem SameLive.processEval_eq (h : SameLive s s') (hs : s.WellFormed) (hs' : s'.WellFormed)
    (eval : Evaluation) : processEval F eval s' = processEval F eval s := by
  have hjob := h.getJob_eq eval.jobId
  have hrank (group : TaskGroup) (free : FreeList) : rank F s' group (groupDemand group) free =
      rank F s group (groupDemand group) free := by
    simp only [rank, h.bonusFor_eq F]
  have hnext (job : Job) : placeNext F s' eval job = placeNext F s eval job := by
    funext as group
    simp only [placeNext, h.remaining_eq, choice, hrank]
  cases hj : s.getJob eval.jobId with
  | none => simp only [processEval, hjob, hj]
  | some job =>
      have hallocs := processEval_allocs F hs' (hjob.trans hj)
      rw [hnext, ← processEval_allocs F hs hj] at hallocs
      exact congrArg Plan.mk hallocs

omit F [F64 F] [Crates] in
theorem SameLive.parks_eq (h : SameLive s s') (eval : Evaluation) (plan : Plan) :
    parks eval plan s' = parks eval plan s := by
  rw [parks, parks, desiredCount, desiredCount, h.getJob_eq]

/-! ## Drains -/

variable {F} {fsm fsm' : Fsm}

theorem SameLive.drainLoop (h : SameLive fsm.state fsm'.state) (hs : fsm.state.WellFormed)
    (hs' : fsm'.state.WellFormed) (clock : ℕ → Instant) (placed : ℕ) (q : EvalQueue) :
    let drained := drainLoop F clock placed q fsm
    let drained' := drainLoop F clock placed q fsm'
    drained'.result = drained.result ∧ drained'.queue = drained.queue ∧
      drained'.acked = drained.acked ∧ SameLive drained.fsm.state drained'.fsm.state := by
  induction hlen : q.heap.length generalizing q fsm fsm' placed with
  | zero =>
      have hq : q.heap = [] := List.length_eq_zero_iff.1 hlen
      rw [drainLoop_of_nil F clock placed hq, drainLoop_of_nil F clock placed hq]
      exact ⟨rfl, rfl, rfl, h⟩
  | succ n ih =>
      cases hpop : popGreatest PendingEval.cmp q.heap with
      | none =>
          rw [popGreatest_eq_none.1 hpop] at hlen
          cases hlen
      | some next =>
          obtain ⟨pe, heap⟩ := next
          have hcount := (popGreatest_perm hpop).length_eq
          rw [List.length_cons, hlen] at hcount
          obtain ⟨plan, hplan⟩ : ∃ plan, plan = processEval F pe.eval fsm.state := ⟨_, rfl⟩
          have hplan' : plan = processEval F pe.eval fsm'.state :=
            hplan.trans (h.processEval_eq F hs hs' pe.eval).symm
          have hvalid : ∀ a ∈ plan.allocs, a.validate = .ok () := hplan ▸ processEval_valid F hs
          rw [drainLoop_of_pop F clock placed hs hpop hplan,
            drainLoop_of_pop F clock placed hs' hpop hplan', h.parks_eq]
          obtain ⟨hresult, hqueue, hacked, hrest⟩ := @ih ⟨fsm.state.commitAll plan.allocs⟩
            ⟨fsm'.state.commitAll plan.allocs⟩ (h.commitAll plan.allocs) (hs.commitAll hvalid)
            (hs'.commitAll hvalid) (placed + plan.allocs.length)
            (q.settle pe heap (parks pe.eval plan fsm.state)) (Nat.succ.inj hcount).symm
          exact ⟨hresult, hqueue, congrArg (List.cons (pe.eval, plan)) hacked, hrest⟩

/-- Two state machines that differ in finished allocations alone answer every command alike and
make the same plans in every drain, and they go on to differ in finished allocations alone. -/
theorem finished_allocations_are_invisible (hfsm : storeSystem.Reachable fsm)
    (hfsm' : storeSystem.Reachable fsm') (h : SameLive fsm.state fsm'.state) :
    (∀ c, (fsm'.apply c).1 = (fsm.apply c).1 ∧
      SameLive (fsm.apply c).2.state (fsm'.apply c).2.state) ∧
    ∀ (clock : ℕ → Instant) (q : EvalQueue),
      let drained := drainQueue F clock q fsm
      let drained' := drainQueue F clock q fsm'
      drained'.result = drained.result ∧ drained'.queue = drained.queue ∧
        drained'.acked = drained.acked ∧ SameLive drained.fsm.state drained'.fsm.state :=
  ⟨h.apply, fun clock q => h.drainLoop (fsm.wellFormed_of_reachable hfsm)
    (fsm'.wellFormed_of_reachable hfsm') clock 0 q⟩

end Plans

section Runs
attribute [local instance] Crates.literal

def finishedAlloc : Allocation where
  id := "eval-0-0"
  evalId := "eval-0"
  nodeId := "node-1"
  jobId := "web"
  taskGroup := "cache"
  desiredStatus := .run
  clientStatus := .complete
  resources := ⟨500, 512, 10⟩

/-- The store knows of a finished allocation, or it does not. -/
theorem finished_allocations_are_invisible_web :
    (drainQueue ℚ (fun _ => 0) (EvalQueue.new.enqueue (webEval "eval-1"))
      ((Fsm.registered [oneNode] (webJob 2)).apply (.upsertAlloc finishedAlloc)).2).acked =
    (drainQueue ℚ (fun _ => 0) (EvalQueue.new.enqueue (webEval "eval-1"))
      (Fsm.registered [oneNode] (webJob 2))).acked := by
  have hfsm := Fsm.registered_reachable [oneNode] (webJob 2)
  have hfsm' := hfsm.next (StoreStep.apply _ (.upsertAlloc finishedAlloc))
  have hlive : SameLive (Fsm.registered [oneNode] (webJob 2)).state
      ((Fsm.registered [oneNode] (webJob 2)).apply (.upsertAlloc finishedAlloc)).2.state :=
    sameLive_upsertAlloc rfl fun old hold => by cases hold
  exact ((finished_allocations_are_invisible hfsm hfsm' hlive).2 (fun _ => 0) _).2.2.1

end Runs
end NomadRs
