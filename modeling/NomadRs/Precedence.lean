import NomadRs.DrainRun

/-!
# Precedence between evaluations

What a drain plans for the evaluations from a priority on depends on these and on the state alone:
the evaluations of lower priority, however many and wherever they were inserted, neither come
before them nor change anything they are given.
-/

namespace NomadRs

/-- The pending evaluations, the oldest insertion first. -/
def EvalQueue.waiting (q : EvalQueue) : List Evaluation :=
  (q.heap.insertionSort fun a b => a.seq ≤ b.seq).map PendingEval.eval

theorem Represents.waiting_eq {q : EvalQueue} {b : Broker} {pend : List PendingEval}
    (h : Represents q b pend) : q.waiting = pend.map PendingEval.eval := by
  have hperm := (List.perm_insertionSort (fun a b : PendingEval => a.seq ≤ b.seq) q.heap).trans
    h.stamped.perm
  have hseqs : (pend.map PendingEval.seq).Nodup :=
    List.pairwise_map.2 (h.stamped.increasing.imp fun hlt => hlt.ne)
  rw [EvalQueue.waiting]
  congr 1
  have hordered : pend.Pairwise fun a b : PendingEval => a.seq ≤ b.seq :=
    h.stamped.increasing.imp fun hlt => hlt.le
  refine List.Perm.eq_of_pairwise ?_ (List.pairwise_insertionSort _ q.heap) hordered hperm
  intro a c ha hc hac hca
  exact List.inj_on_of_nodup_map hseqs (hperm.mem_iff.1 ha) hc (le_antisymm hac hca)

theorem EvalQueue.drains_waiting {q : EvalQueue} (hq : queueSystem.Reachable q)
    {pes : List PendingEval} (hperm : pes.Perm q.heap)
    (hsorted : pes.Pairwise fun a b => (a.cmp b).isGE = true) :
    StableQueue.Drains Evaluation.priority q.waiting (pes.map PendingEval.eval) := by
  obtain ⟨b, pend, hrep⟩ := Represents.of_reachable hq
  rw [PendingEval.cmp_eq_stampCmp] at hsorted
  rw [hrep.waiting_eq]
  exact (hrep.stamped.drains hperm hsorted).map PendingEval.eval

section Runs
variable (F : Type) [F64 F] [Crates]

theorem planned_append (evals more : List Evaluation) (s : StateStore) :
    planned F (evals ++ more) s = planned F evals s ++
      planned F more (s.commitAll ((planned F evals s).flatMap fun p => p.2.allocs)) := by
  induction evals generalizing s with
  | nil => rfl
  | cons eval evals ih =>
      rw [List.cons_append, planned, ih, planned]
      simp only [List.flatMap_cons, StateStore.commitAll_append]
      rfl

theorem map_fst_planned (evals : List Evaluation) (s : StateStore) :
    (planned F evals s).map Prod.fst = evals := by
  induction evals generalizing s with
  | nil => rfl
  | cons eval evals ih => rw [planned, List.map_cons, ih]

/-- A drain takes the evaluations from a priority on first, and plans for them as if they were all
there is. -/
theorem drainQueue_from (clock : ℕ → Instant) {fsm : Fsm} {q : EvalQueue}
    (hfsm : storeSystem.Reachable fsm) (hq : queueSystem.Reachable q) (hids : q.held.Nodup)
    (p : Int) : ∃ out, StableQueue.Drains Evaluation.priority
        (q.waiting.filter fun eval => p ≤ eval.priority) out ∧
      planned F out fsm.state <+: (drainQueue F clock q fsm).acked ∧
      (drainQueue F clock q fsm).acked.filter (fun x => p ≤ x.1.priority) =
        planned F out fsm.state := by
  obtain ⟨pes, hperm, hsorted, plans, hplans, hdrain⟩ := drainLoop_eq (F := F) clock 0
    (fsm.wellFormed_of_reachable hfsm) (EvalQueue.lookup_eq_none_of_nodup hids)
  obtain ⟨out, low, hout, hdrains, hlow⟩ := (EvalQueue.drains_waiting hq hperm hsorted).split p
  have hacked : (drainQueue F clock q fsm).acked = planned F (out ++ low) fsm.state := by
    rw [drainQueue, hdrain, ← hout, hplans]
  rw [planned_append] at hacked
  have hmem : ∀ {evals : List Evaluation} {s : StateStore} {x : Evaluation × Plan},
      x ∈ planned F evals s → x.1 ∈ evals := by
    intro evals s x hx
    rw [← map_fst_planned F evals s]
    exact List.mem_map_of_mem hx
  refine ⟨out, hdrains, hacked ▸ List.prefix_append _ _, ?_⟩
  rw [hacked, List.filter_append, List.filter_eq_self.2, List.filter_eq_nil_iff.2, List.append_nil]
  · intro x hx
    simpa using hlow _ (hmem hx)
  · intro x hx
    simpa using (List.mem_filter.1 ((hdrains.mem_iff _).1 (hmem hx))).2

/-- Two drains of the same state whose queues agree on the evaluations from a priority on make the
same plans for these, in the same order and before all others. -/
theorem lower_priorities_do_not_interfere (clock clock' : ℕ → Instant) {fsm : Fsm}
    {q q' : EvalQueue} (hfsm : storeSystem.Reachable fsm) (hq : queueSystem.Reachable q)
    (hq' : queueSystem.Reachable q') (hids : q.held.Nodup) (hids' : q'.held.Nodup) (p : Int)
    (hsame : (q.waiting.filter fun eval => p ≤ eval.priority) =
      q'.waiting.filter fun eval => p ≤ eval.priority) :
    let plans := (drainQueue F clock q fsm).acked.filter fun x => p ≤ x.1.priority
    plans = (drainQueue F clock' q' fsm).acked.filter (fun x => p ≤ x.1.priority) ∧
      plans <+: (drainQueue F clock q fsm).acked ∧
      plans <+: (drainQueue F clock' q' fsm).acked := by
  obtain ⟨out, hdrains, hprefix, hplans⟩ := drainQueue_from F clock hfsm hq hids p
  obtain ⟨out', hdrains', hprefix', hplans'⟩ := drainQueue_from F clock' hfsm hq' hids' p
  obtain rfl : out = out' := hdrains.unique (hsame ▸ hdrains')
  dsimp only
  rw [hplans, hplans']
  exact ⟨rfl, hprefix, hprefix'⟩

end Runs

section Runs
attribute [local instance] Crates.literal

theorem lower_priorities_do_not_interfere_web :
    ((drainQueue ℚ (fun _ => 0) (EvalQueue.new.enqueue (webEval "eval-1"))
      (Fsm.registered [oneNode] (webJob 2))).acked.filter fun x => 50 ≤ x.1.priority) <+:
    (drainQueue ℚ (fun _ => 0)
      ((EvalQueue.new.enqueue { webEval "eval-0" with priority := 10 }).enqueue (webEval "eval-1"))
      (Fsm.registered [oneNode] (webJob 2))).acked := by
  have hone : queueSystem.Reachable (EvalQueue.new.enqueue (webEval "eval-1")) :=
    .next (.start rfl) (.enqueue _)
  have htwo : queueSystem.Reachable
      ((EvalQueue.new.enqueue { webEval "eval-0" with priority := 10 }).enqueue
        (webEval "eval-1")) := .next (.next (.start rfl) (.enqueue _)) (.enqueue _)
  exact (lower_priorities_do_not_interfere ℚ (fun _ => 0) (fun _ => 0)
    (Fsm.registered_reachable [oneNode] (webJob 2)) hone htwo (by decide) (by decide) 50
    (by decide)).2.2

end Runs
end NomadRs
