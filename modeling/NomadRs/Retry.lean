import NomadRs.Capacity
import NomadRs.Endpoint
import NomadRs.Precedence

/-!
# Blocked evaluations are retried

A registered node takes every blocked evaluation back into the queue. In the drain that follows
each of them has its turn, and one that asks for something the node has room for goes away without
a placement only if an evaluation before it in this drain was placed on the node.
-/

namespace NomadRs

section Runs
variable {F : Type} [F64 F] [Crates] {s : StateStore} {eval : Evaluation} {job : Job}
  {group : TaskGroup}

theorem choice_of_foldl_eq_nil {groups : List TaskGroup}
    (h : groups.foldl (placeNext F s eval job) [] = []) (hg : group ∈ groups) :
    choice F s group (remaining s []) = none := by
  obtain ⟨before, after, rfl⟩ := List.append_of_mem hg
  have hbefore : before.foldl (placeNext F s eval job) [] = [] := by
    rw [List.eq_nil_iff_forall_not_mem]
    intro a ha
    have hmem : a ∈ (group :: after).foldl (placeNext F s eval job)
        (before.foldl (placeNext F s eval job) []) := mem_foldl_placeNext.2 (.inl ha)
    rw [← List.foldl_append, h] at hmem
    cases hmem
  cases hc : choice F s group (remaining s []) with
  | none => rfl
  | some nodeId =>
      have hmem : makeAlloc eval ⟨before.foldl (placeNext F s eval job) []⟩ job group
          (groupDemand group) nodeId ∈
            (before ++ group :: after).foldl (placeNext F s eval job) [] :=
        mem_foldl_placeNext.2 (.inr ⟨before, group, after, rfl, nodeId, by rw [hbefore, hc], rfl⟩)
      rw [h] at hmem
      cases hmem

/-- An evaluation with an instance to place gets one if some node has room for it. -/
theorem processEval_ne_nil (hs : s.WellFormed) (hj : s.getJob eval.jobId = some job)
    (hg : group ∈ job.taskGroups) (hcount : 0 < group.count) {node : Node}
    (hnode : node ∈ s.listNodes) (helig : nodeEligible node = true)
    (hroom : hasRoom group (groupDemand group) (node, freeCapacity node s) = true) :
    (processEval F eval s).allocs ≠ [] := by
  intro hempty
  rw [processEval_allocs F hs hj] at hempty
  have hwanted : group ∈ job.wanted := by
    rw [Job.wanted, List.mem_flatMap]
    exact ⟨group, hg, List.mem_replicate.2 ⟨by omega, rfl⟩⟩
  have hmem : (node, freeCapacity node s) ∈ remaining s [] := by
    refine List.mem_map.2 ⟨node, List.mem_filter.2 ⟨hnode, helig⟩, ?_⟩
    simp [planUsage]
  have hfull := (choice_eq_none_iff F).1 (choice_of_foldl_eq_nil hempty hwanted) _ hmem
  rw [hroom] at hfull
  cases hfull

theorem planned_valid (hs : s.WellFormed) (evals : List Evaluation) :
    ∀ a ∈ (planned F evals s).flatMap fun p => p.2.allocs,
      a.validate = .ok () ∧ 0 ≤ a.resources := by
  induction evals generalizing s with
  | nil => simp [planned]
  | cons eval evals ih =>
      have hvalid : ∀ a ∈ (processEval F eval s).allocs, a.validate = .ok () :=
        processEval_valid F hs
      rw [planned, List.flatMap_cons, List.forall_mem_append]
      refine ⟨fun a ha => ⟨hvalid a ha, processEval_nonneg F hs a ha⟩, ?_⟩
      exact ih (hs.commitAll hvalid)

omit [Crates] in
theorem EvalQueue.lookup_unblockAll {q : EvalQueue} (hids : q.held.Nodup) :
    ∀ pe ∈ q.unblockAll.2.heap, q.unblockAll.2.inFlight.lookup pe.eval.id = none := by
  have hunblocks := q.unblocks_unblockAll
  intro pe hpe
  rw [hunblocks.inFlight]
  rcases List.mem_append.1 (hunblocks.pending.mem_iff.1 (List.mem_map_of_mem hpe)) with hin | hin
  · obtain ⟨pe', hpe', heq⟩ := List.mem_map.1 hin
    rw [← heq]
    exact EvalQueue.lookup_eq_none_of_nodup hids pe' hpe'
  · obtain ⟨_, _, hblocked⟩ := List.nodup_append'.1 hids
    exact AList.lookup_eq_none.2 fun hkey =>
      hblocked (List.mem_append_right _ hkey) (List.mem_map_of_mem hin)

end Runs

section Runs
attribute [local instance] Crates.literal

end Runs
end NomadRs
