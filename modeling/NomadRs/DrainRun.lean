import NomadRs.Agreement
import NomadRs.BrokerOrder
import NomadRs.HeldIds

/-!
# What a drain leaves

A drain takes the pending evaluations by priority, the older first among equals, and computes each
plan from the state that the plans before it leave. Nothing it commits is rejected, so it ends with
an empty heap, and all that is left of an evaluation are its placements or, if it wanted some and
got none, its entry in the blocked list (`drainQueue_run`).
-/

namespace NomadRs

/-- Taken first: of a higher priority, or older and of the same priority. -/
def PendingEval.Before (self other : PendingEval) : Prop :=
  other.eval.priority < self.eval.priority ∨
    (other.eval.priority = self.eval.priority ∧ self.seq < other.seq)

theorem pairwise_before {pes : List PendingEval}
    (hge : pes.Pairwise fun a b => (a.cmp b).isGE = true)
    (hseq : (pes.map PendingEval.seq).Nodup) : pes.Pairwise PendingEval.Before := by
  refine (hge.and (List.pairwise_map.1 hseq)).imp fun ⟨hcmp, hne⟩ => ?_
  rw [PendingEval.cmp_eq_stampCmp, StableQueue.stampCmp_isGE] at hcmp
  exact hcmp.imp_right fun ⟨hprio, hle⟩ => ⟨hprio, lt_of_le_of_ne hle hne⟩

section Runs
variable (F : Type) [F64 F] [Crates]

/-- Each evaluation with the plan computed from the state that the plans before it leave. -/
def planned : List Evaluation → StateStore → List (Evaluation × Plan)
  | [], _ => []
  | eval :: evals, s =>
    let plan := processEval F eval s
    (eval, plan) :: planned evals (s.commitAll plan.allocs)

variable {F} {fsm : Fsm} {q : EvalQueue}

omit [Crates] in
theorem parks_planned (s s' : StateStore) (hjobs : s'.jobs = s.jobs)
    (plans : List (Evaluation × Plan)) :
    (plans.filter fun p => parks p.1 p.2 s') = plans.filter fun p => parks p.1 p.2 s := by
  refine List.filter_congr fun p _ => ?_
  rw [parks, parks, desiredCount_congr hjobs]

theorem drainLoop_eq (clock : ℕ → Instant) (placed : ℕ) (hs : fsm.state.WellFormed)
    (hfree : ∀ pe ∈ q.heap, q.inFlight.lookup pe.eval.id = none) :
    ∃ pes : List PendingEval, pes.Perm q.heap ∧
      pes.Pairwise (fun a b => (a.cmp b).isGE = true) ∧
      ∃ plans, plans = planned F (pes.map PendingEval.eval) fsm.state ∧
        drainLoop F clock placed q fsm = {
          result := .ok (placed + (plans.map fun p => p.2.allocs.length).sum)
          queue := { q with
            heap := []
            blocked := q.blocked ++
              (plans.filter fun p => parks p.1 p.2 fsm.state).map Prod.fst }
          fsm := ⟨fsm.state.commitAll (plans.flatMap fun p => p.2.allocs)⟩
          acked := plans } := by
  induction hlen : q.heap.length generalizing q fsm placed with
  | zero =>
      have hq : q.heap = [] := List.length_eq_zero_iff.1 hlen
      refine ⟨[], by rw [hq], .nil, [], rfl, ?_⟩
      rw [drainLoop_of_nil F clock placed hq, ← hq]
      simp
  | succ n ih =>
      cases hpop : popGreatest PendingEval.cmp q.heap with
      | none =>
          rw [popGreatest_eq_none.1 hpop] at hlen
          cases hlen
      | some next =>
          obtain ⟨pe, heap⟩ := next
          have hperm : q.heap.Perm (pe :: heap) := popGreatest_perm hpop
          obtain ⟨plan, hplan⟩ : ∃ plan, plan = processEval F pe.eval fsm.state := ⟨_, rfl⟩
          -- no delivery under its id is pending, so taking and acknowledging it changes none
          have herase : AList.erase pe.eval.id q.inFlight = q.inFlight :=
            HashMap.erase_eq_self (hfree pe (hperm.mem_iff.2 List.mem_cons_self))
          have hs' : (fsm.state.commitAll plan.allocs).WellFormed :=
            hs.commitAll (hplan ▸ processEval_valid F hs)
          have hfree' : ∀ pe' ∈ heap, q.inFlight.lookup pe'.eval.id = none := fun pe' hpe' =>
            hfree pe' (hperm.mem_iff.2 (List.mem_cons_of_mem _ hpe'))
          have hlen' : heap.length = n := by
            have hcount := hperm.length_eq
            rw [List.length_cons] at hcount
            exact Nat.succ.inj (hcount.symm.trans hlen)
          obtain ⟨q', hq'⟩ : ∃ q', q' = q.settle pe heap (parks pe.eval plan fsm.state) := ⟨_, rfl⟩
          rw [EvalQueue.settle, herase] at hq'
          obtain ⟨pes, hpes, hsorted, plans, hplans, hrest⟩ := @ih
            ⟨fsm.state.commitAll plan.allocs⟩ q' (placed + plan.allocs.length) hs'
            (hq' ▸ hfree') (hq' ▸ hlen')
          rw [hq'] at hpes
          have hge : ∀ b ∈ pes, (pe.cmp b).isGE = true := by
            intro b hb
            rw [PendingEval.cmp_eq_stampCmp] at hpop ⊢
            exact popGreatest_greatest hpop b
              (hperm.mem_iff.2 (List.mem_cons_of_mem _ (hpes.mem_iff.1 hb)))
          refine ⟨pe :: pes, (hpes.cons pe).trans hperm.symm, .cons hge hsorted,
            (pe.eval, plan) :: plans, ?_, ?_⟩
          · rw [List.map_cons, planned, ← hplan, hplans]
          · rw [drainLoop_of_pop F clock placed hs hpop hplan]
            simp only [EvalQueue.settle, herase, ← hq', hrest]
            simp only [hq', List.map_cons, List.sum_cons, List.flatMap_cons,
              StateStore.commitAll_append, Nat.add_assoc, List.filter_cons,
              parks_planned fsm.state _ (StateStore.commitAll_jobs _ _)]
            cases parks pe.eval plan fsm.state <;> simp

omit [Crates] in
theorem EvalQueue.lookup_eq_none_of_nodup (hids : q.held.Nodup) :
    ∀ pe ∈ q.heap, q.inFlight.lookup pe.eval.id = none := by
  intro pe hpe
  obtain ⟨_, _, hdisj⟩ := List.nodup_append'.1 (List.nodup_append'.1 hids).1
  exact AList.lookup_eq_none.2 fun hmem =>
    hdisj (List.mem_map_of_mem (f := fun pe => pe.eval.id) hpe) hmem

variable (F)

/-- A drain processes the pending evaluations in their order, each against the state left by those
before it, and ends without an error. What was in flight still is, and the evaluations that wanted
placements and got none are blocked. -/
theorem drainQueue_run (clock : ℕ → Instant) (hfsm : storeSystem.Reachable fsm)
    (hq : queueSystem.Reachable q) (hids : q.held.Nodup) :
    ∃ (pes : List PendingEval) (drained : Drained), drained = drainQueue F clock q fsm ∧
      pes.Perm q.heap ∧ pes.Pairwise PendingEval.Before ∧
      drained.acked = planned F (pes.map PendingEval.eval) fsm.state ∧
      drained.result = .ok (drained.acked.map fun p => p.2.allocs.length).sum ∧
      drained.queue = { q with
        heap := []
        blocked := q.blocked ++ (drained.acked.filter fun p =>
          p.2.allocs.isEmpty && 0 < desiredCount p.1 fsm.state).map Prod.fst } ∧
      drained.fsm.state = fsm.state.commitAll drained.placements ∧
      drained.fsm.state.jobs = fsm.state.jobs ∧ drained.fsm.state.nodes = fsm.state.nodes ∧
      drained.fsm.state.evals = fsm.state.evals := by
  obtain ⟨pes, hperm, hsorted, plans, hplans, hdrain⟩ := drainLoop_eq (F := F) clock 0
    (fsm.wellFormed_of_reachable hfsm) (EvalQueue.lookup_eq_none_of_nodup hids)
  have hseq : (pes.map PendingEval.seq).Nodup :=
    (hperm.map _).nodup_iff.2 (EvalQueue.nodup_seqs hq)
  refine ⟨pes, _, rfl, hperm, pairwise_before hsorted hseq, ?_⟩
  rw [drainQueue, hdrain]
  refine ⟨hplans, by rw [Nat.zero_add], rfl, rfl, StateStore.commitAll_jobs _ _,
    StateStore.commitAll_nodes _ _, ?_⟩
  rw [StateStore.commitAll_eq]

end Runs

section Runs
attribute [local instance] Crates.literal

/-- Two evaluations of a job: the first places both instances, and the second is blocked. -/
theorem drainQueue_run_twice : ∃ drained : Drained,
    drained = drainQueue ℚ (fun _ => 0)
      ((EvalQueue.new.enqueue (webEval "eval-1")).enqueue (webEval "eval-2"))
      (Fsm.registered [oneNode] (webJob 2)) ∧
    drained.result = .ok 2 ∧ drained.queue.blocked = [webEval "eval-2"] ∧
    drained.queue.heap = [] ∧ drained.queue.inFlight = ∅ := by
  have hone : queueSystem.Reachable (EvalQueue.new.enqueue (webEval "eval-1")) :=
    .next (.start rfl) (.enqueue _)
  have htwo := hone.next (QueueStep.enqueue (webEval "eval-2"))
  obtain ⟨pes, drained, hdrained, _, _, _, hresult, hqueue, _⟩ := drainQueue_run ℚ (fun _ => 0)
    (Fsm.registered_reachable [oneNode] (webJob 2)) htwo (by decide)
  have hplaced : (drained.acked.map fun p => p.2.allocs.length).sum = 2 := by
    rw [hdrained]
    decide +kernel
  have hparked : (drained.acked.filter fun p => p.2.allocs.isEmpty &&
      0 < desiredCount p.1 (Fsm.registered [oneNode] (webJob 2)).state).map Prod.fst =
        [webEval "eval-2"] := by
    rw [hdrained]
    decide +kernel
  refine ⟨drained, hdrained, hresult.trans (congrArg Except.ok hplaced), ?_⟩
  rw [hqueue, hparked]
  exact ⟨rfl, rfl, rfl⟩

end Runs
end NomadRs
