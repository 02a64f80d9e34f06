import NomadRs.NumberedName
import NomadRs.Release

/-!
# Plans are sound

The allocations of a plan come in segments, one for each task group in the order of the job, and
every allocation of a segment is what the group asks for, on a node the group may run on. Their ids
are numbered through, so no two are the same. The one thing that can go wrong is the demand of a
group: where its sum is no `i32`, what is reserved is not the sum (`demand_wraps_around`). Both
placement loops of `Release.processEval` are runs of `Adds`, so that one induction covers them.
-/

open NumberedName

namespace NomadRs

section Plans
variable [Crates] {eval : Evaluation} {job : Job} {group : TaskGroup} {st st' : FreeList × Plan}

/-! ## Numbered allocations -/

def Plan.Numbered (evalId : EvalId) (plan : Plan) : Prop :=
  ∀ (i : ℕ) (a : Allocation), plan.allocs[i]? = some a → a.id = s!"{evalId}-{i}"

omit [Crates] in
theorem Plan.Numbered.push {plan : Plan} (h : plan.Numbered eval.id) (need : Resources)
    (nodeId : NodeId) :
    (plan.push (makeAlloc eval plan job group need nodeId)).Numbered eval.id := by
  intro i a ha
  rw [Plan.push, List.getElem?_append] at ha
  split at ha
  · exact h i a ha
  next hge =>
    rw [List.getElem?_singleton, Option.ite_none_right_eq_some] at ha
    obtain ⟨hzero, ⟨⟩⟩ := ha
    obtain rfl : i = plan.allocs.length := by omega
    rfl

theorem Place.numbered (hp : Place eval job group st st') (h : st.2.Numbered eval.id) :
    st'.2.Numbered eval.id := by
  obtain ⟨l₁, node, avail, l₂, plan, _⟩ := hp
  exact Plan.Numbered.push h _ _

omit [Crates] in
theorem Plan.Numbered.nodup {evalId : EvalId} {plan : Plan} (h : plan.Numbered evalId) :
    (plan.allocs.map Allocation.id).Nodup := by
  rw [List.nodup_iff_injective_getElem]
  rintro ⟨i, hi⟩ ⟨j, hj⟩ hij
  rw [List.length_map] at hi hj
  simp only [List.getElem_map] at hij
  rw [h i _ (List.getElem?_eq_getElem hi), h j _ (List.getElem?_eq_getElem hj)] at hij
  exact Fin.ext (number_eq hij)

variable (F : Type) [F64 F]

theorem processEval_numbered {s : StateStore} (hs : s.WellFormed) (eval : Evaluation) :
    (processEval F eval s).Numbered eval.id := by
  cases hj : s.getJob eval.jobId with
  | none =>
      intro i a ha
      rw [processEval_of_no_job F hj] at ha
      cases ha
  | some job =>
      obtain ⟨free, hrun⟩ := processEval_run F eval hs hj
      exact hrun.invariant (fun st => st.2.Numbered eval.id) (fun _ _ _ _ h hp => hp.numbered h)
        fun i a ha => by cases ha

/-! ## Segments -/

/-- What an allocation for a task group carries, on a node the group may run on. -/
structure Allocation.PlacedFor (s : StateStore) (eval : Evaluation) (job : Job)
    (group : TaskGroup) (a : Allocation) : Prop where
  node : ∃ node, s.getNode a.nodeId = some node ∧ node.status = .ready ∧
    node.eligibility = .eligible ∧ node.draining = false ∧
    ∀ c ∈ group.constraints, c.satisfiedBy node.attributes = true
  resources : a.resources = (group.tasks.map Task.resources).sum
  evalId : a.evalId = eval.id
  jobId : a.jobId = job.name
  taskGroup : a.taskGroup = group.name
  desiredStatus : a.desiredStatus = .run
  clientStatus : a.clientStatus = .pending

structure Segment (s : StateStore) (eval : Evaluation) (job : Job) (group : TaskGroup)
    (as : List Allocation) : Prop where
  length : (as.length : Int) ≤ max group.count 0
  placed : ∀ a ∈ as, a.PlacedFor s eval job group

/-- A plan of one segment for each group, with distinct ids. -/
structure Plan.SoundFor (s : StateStore) (eval : Evaluation) (job : Job) (plan : Plan) : Prop where
  segments : ∃ segments : List (List Allocation), plan.allocs = segments.flatten ∧
    List.Forall₂ (Segment s eval job) job.taskGroups segments
  distinct : (plan.allocs.map Allocation.id).Nodup

theorem Plan.SoundFor.resources {s : StateStore} {plan : Plan} (h : plan.SoundFor s eval job) :
    ∀ a ∈ plan.allocs, ∃ group ∈ job.taskGroups,
      a.resources = (group.tasks.map Task.resources).sum := by
  obtain ⟨segments, hsplit, hseg⟩ := h.segments
  intro a ha
  rw [hsplit] at ha
  obtain ⟨as, has, ha⟩ := List.mem_flatten.1 ha
  obtain ⟨i, hi, rfl⟩ := List.mem_iff_getElem.1 has
  obtain ⟨hlen, hget⟩ := List.forall₂_iff_get.1 hseg
  exact ⟨_, List.get_mem _ ⟨i, hlen ▸ hi⟩, ((hget i (hlen ▸ hi) hi).placed a ha).resources⟩

omit [Crates] in
theorem nodeEligible_iff {node : Node} : nodeEligible node = true ↔
    node.status = .ready ∧ node.eligibility = .eligible ∧ node.draining = false := by
  simp [nodeEligible, and_assoc]

namespace Release

def Adds (eval : Evaluation) (job : Job) (group : TaskGroup) (st st' : FreeList × Plan) : Prop :=
  st'.1.map Prod.fst = st.1.map Prod.fst ∧ ∃ node ∈ st.1.map Prod.fst,
    meetsConstraints node group = true ∧
    st'.2 = st.2.push (makeAlloc eval st.2 job group (groupDemand group) node.id)

omit [Crates] in
theorem decrementFirst_nodes (p : Node × Resources → Bool) (need : Resources) (free : FreeList) :
    (decrementFirst p need free).map Prod.fst = free.map Prod.fst := by
  induction free with
  | nil => rfl
  | cons e free ih =>
      rw [decrementFirst]
      split <;> simp [ih]

theorem Adds.pay {free : FreeList} {plan : Plan} {node : Node} {avail : Resources}
    (p : Node × Resources → Bool) (hmem : (node, avail) ∈ free)
    (hroom : hasRoom group (groupDemand group) (node, avail) = true) :
    Adds eval job group (free, plan) (decrementFirst p (groupDemand group) free,
      plan.push (makeAlloc eval plan job group (groupDemand group) node.id)) :=
  ⟨decrementFirst_nodes .., node, List.mem_map.2 ⟨_, hmem, rfl⟩,
    (Bool.and_eq_true_iff.1 hroom).2, rfl⟩

theorem placeFirstFit_adds (n : ℕ) (st : FreeList × Plan) : ∃ k ≤ n,
    Steps (Adds eval job group) k st (placeFirstFit eval job group (groupDemand group) n st) := by
  induction n generalizing st with
  | zero => exact ⟨0, le_rfl, .refl _⟩
  | succ n ih =>
      obtain ⟨free, plan⟩ := st
      rw [placeFirstFit]
      cases hf : free.find? (hasRoom group (groupDemand group)) with
      | none => exact ⟨0, Nat.zero_le _, .refl _⟩
      | some entry =>
          obtain ⟨k, hk, hsteps⟩ := ih (decrementFirst (hasRoom group (groupDemand group))
            (groupDemand group) free,
              plan.push (makeAlloc eval plan job group (groupDemand group) entry.1.id))
          exact ⟨k + 1, by omega, .head
            (.pay _ (List.mem_of_find?_eq_some hf) (List.find?_some hf)) hsteps⟩

theorem placeScored_adds {s : StateStore} (n : ℕ) (st : FreeList × Plan) : ∃ k ≤ n,
    Steps (Adds eval job group) k st (placeScored F eval s job group (groupDemand group) n st) := by
  induction n generalizing st with
  | zero => exact ⟨0, le_rfl, .refl _⟩
  | succ n ih =>
      obtain ⟨free, plan⟩ := st
      rw [placeScored]
      cases hr : (rank F s group (groupDemand group) free).head? with
      | none => exact ⟨0, Nat.zero_le _, .refl _⟩
      | some best =>
          have hmem := List.mem_of_mem_head? (Option.mem_def.2 hr)
          simp only [rank, List.mem_insertionSort, List.mem_map, List.mem_filter] at hmem
          obtain ⟨⟨⟨node, avail⟩, idx⟩, ⟨hz, hroom⟩, rfl⟩ := hmem
          dsimp only
          split
          next =>
            obtain ⟨k, hk, hsteps⟩ := ih (free, plan)
            exact ⟨k, by omega, hsteps⟩
          next =>
            obtain ⟨k, hk, hsteps⟩ := ih (decrementFirst (fun e => e.1.id == node.id)
              (groupDemand group) free,
                plan.push (makeAlloc eval plan job group (groupDemand group) node.id))
            exact ⟨k + 1, by omega,
              .head (.pay _ (List.fst_mem_of_mem_zipIdx hz) hroom) hsteps⟩

variable (eval job group) in
theorem placeGroup_adds {s : StateStore} (st : FreeList × Plan) :
    ∃ k ≤ (max group.count 0).toNat,
      Steps (Adds eval job group) k st (placeGroup F eval s job st group) := by
  unfold placeGroup
  dsimp only
  split
  · exact placeFirstFit_adds _ st
  · exact placeScored_adds F _ st

variable {F} {s : StateStore}

theorem Adds.placedFor (hs : s.WellFormed)
    (hnodes : st.1.map Prod.fst = s.listNodes.filter nodeEligible)
    (hneed : groupDemand group = (group.tasks.map Task.resources).sum)
    (h : Adds eval job group st st') : st'.1.map Prod.fst = s.listNodes.filter nodeEligible ∧
      ∃ a, st'.2.allocs = st.2.allocs ++ [a] ∧ a.PlacedFor s eval job group := by
  obtain ⟨hsame, node, hmem, hmeets, hplan⟩ := h
  refine ⟨hsame.trans hnodes, makeAlloc eval st.2 job group (groupDemand group) node.id,
    congrArg Plan.allocs hplan, ?_, hneed, rfl, rfl, rfl, rfl, rfl⟩
  rw [hnodes] at hmem
  obtain ⟨hstored, helig⟩ := List.mem_filter.1 hmem
  obtain ⟨hready, heligible, hdraining⟩ := nodeEligible_iff.1 helig
  rw [meetsConstraints, List.all_eq_true] at hmeets
  exact ⟨node, hs.getNode_of_mem hstored, hready, heligible, hdraining, hmeets⟩

theorem Adds.numbered (h : Adds eval job group st st') (hst : st.2.Numbered eval.id) :
    st'.2.Numbered eval.id := by
  obtain ⟨_, node, _, _, hplan⟩ := h
  rw [hplan]
  exact hst.push _ _

variable (job st) in
theorem foldl_placeGroup_sound (hs : s.WellFormed) {groups : List TaskGroup}
    (hneed : ∀ group ∈ groups, groupDemand group = (group.tasks.map Task.resources).sum)
    (hnodes : st.1.map Prod.fst = s.listNodes.filter nodeEligible)
    (hst : st.2.Numbered eval.id) :
    (groups.foldl (placeGroup F eval s job) st).2.Numbered eval.id ∧
    ∃ segments : List (List Allocation),
      (groups.foldl (placeGroup F eval s job) st).2.allocs = st.2.allocs ++ segments.flatten ∧
      List.Forall₂ (Segment s eval job) groups segments := by
  induction groups generalizing st with
  | nil => exact ⟨hst, [], by simp, .nil⟩
  | cons group groups ih =>
      obtain ⟨hgroup, hneed⟩ := List.forall_mem_cons.1 hneed
      obtain ⟨k, hk, hsteps⟩ := placeGroup_adds eval job group F (s := s) st
      have hnext := hsteps.invariant
        (fun st => st.1.map Prod.fst = s.listNodes.filter nodeEligible ∧ st.2.Numbered eval.id)
        (fun _ _ h hadd => ⟨(hadd.placedFor hs h.1 hgroup).1, hadd.numbered h.2⟩) ⟨hnodes, hst⟩
      obtain ⟨as, has, hlen, hall⟩ := hsteps.collect
        (fun st => st.1.map Prod.fst = s.listNodes.filter nodeEligible) (fun st => st.2.allocs) _
        (fun _ _ hnodes hadd => hadd.placedFor hs hnodes hgroup) hnodes
      obtain ⟨hnum, segments, hsplit, hseg⟩ := ih _ hneed hnext.1 hnext.2
      refine ⟨hnum, as :: segments, ?_, .cons ⟨by omega, hall⟩ hseg⟩
      rw [List.foldl_cons, hsplit, has, List.append_assoc, List.flatten_cons]

end Release

/-- A plan is empty if the job is unknown. Else, if the demand of every group is an `i32`, it is
sound. -/
theorem processEval_sound {fsm : Fsm} (h : storeSystem.Reachable fsm) (eval : Evaluation) :
    (fsm.state.getJob eval.jobId = none →
      (Release.processEval F eval fsm.state).allocs = []) ∧
    ∀ job, fsm.state.getJob eval.jobId = some job →
      (∀ group ∈ job.taskGroups, (group.tasks.map Task.resources).sum ≤ Resources.i32Max) →
      (Release.processEval F eval fsm.state).SoundFor fsm.state eval job := by
  have hs := fsm.wellFormed_of_reachable h
  refine ⟨fun hj => by simp only [Release.processEval, hj], fun job hj hdemand => ?_⟩
  have hneed : ∀ group ∈ job.taskGroups,
      Release.groupDemand group = (group.tasks.map Task.resources).sum := fun group hg => by
    rw [Release.groupDemand_eq (hs.group_ok hj hg) (hdemand group hg), groupDemand_eq]
  have hnone : ({} : Plan).Numbered eval.id := fun i a ha => by cases ha
  obtain ⟨hnum, segments, hsplit, hseg⟩ := Release.foldl_placeGroup_sound (F := F) job
    (Release.initialFree fsm.state, {}) hs hneed
    (by simp [Release.initialFree, Function.comp_def]) hnone
  simp only [Release.processEval, hj, Release.placeGroups]
  exact ⟨⟨segments, hsplit, hseg⟩, hnum.nodup⟩

end Plans

section Plans
attribute [local instance] Crates.literal

theorem processEval_sound_web :
    (Release.processEval ℚ (webEval "eval-1")
      (Fsm.registered [oneNode] (webJob 2)).state).allocs.length = 2 ∧
    (Release.processEval ℚ (webEval "eval-1")
      (Fsm.registered [oneNode] (webJob 2)).state).SoundFor
        (Fsm.registered [oneNode] (webJob 2)).state (webEval "eval-1") (webJob 2) :=
  ⟨by decide, (processEval_sound ℚ (Fsm.registered_reachable [oneNode] (webJob 2))
    (webEval "eval-1")).2 (webJob 2) (by decide) (by decide)⟩

/-- Two tasks that ask for all of an `i32` reserve less than nothing. -/
theorem demand_wraps_around : ¬ ∀ (fsm : Fsm) (eval : Evaluation),
    storeSystem.ReachableVia (fun _ e => e.I32) fsm → ∀ job,
      fsm.state.getJob eval.jobId = some job →
        (Release.processEval ℚ eval fsm.state).SoundFor fsm.state eval job := by
  intro h
  have hjob : (Command.upsertJob twoLargest).I32 := by
    change ∀ g ∈ _, _ ∧ ∀ t ∈ _, _
    decide
  have hsound := h _ (webEval "eval-1") (registered_i32 hjob) twoLargest (by decide)
  have hplaced : ∃ a ∈ (Release.processEval ℚ (webEval "eval-1")
      (Fsm.registered [oneNode] twoLargest).state).allocs, a.resources = ⟨-2, 1024, 20⟩ := by
    decide
  obtain ⟨a, ha, hres⟩ := hplaced
  obtain ⟨group, hg, hsum⟩ := hsound.resources a ha
  rw [hres] at hsum
  revert group
  decide

end Plans
end NomadRs
