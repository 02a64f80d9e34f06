import NomadRs.Scheduler
import NomadRs.Transition

/-!
# What one evaluation may place

Both placement loops of `processEval` are sequences of one step, `Place`: some entry of the free
list with room for the group's demand pays for one more allocation. `PlanRun` chains the turns of
the task groups, with at most `count` steps in each, and `processEval_run` says that every plan
is such a run. Facts about plans are inductions over it.
-/

namespace NomadRs

theorem Resources.decrement_eq (a b : Resources) : a.decrement b = a - b := rfl

theorem fits_iff {avail need : Resources} : fits avail need = true ↔ need ≤ avail := by
  simp [fits, Resources.le_def, and_assoc]

theorem foldl_demand (tasks : List Task) (acc : Resources) :
    tasks.foldl (fun acc t =>
      { cpuMhz := acc.cpuMhz + t.resources.cpuMhz
        memoryMb := acc.memoryMb + t.resources.memoryMb
        networkMbps := acc.networkMbps + t.resources.networkMbps : Resources }) acc =
      acc + (tasks.map Task.resources).sum := by
  induction tasks generalizing acc with
  | nil => simp
  | cons t tasks ih =>
      rw [List.foldl_cons, ih, List.map_cons, List.sum_cons, ← add_assoc]
      rfl

theorem groupDemand_eq (group : TaskGroup) :
    groupDemand group = (group.tasks.map Task.resources).sum := by
  rw [groupDemand, foldl_demand]
  exact zero_add _

theorem groupDemand_nonneg {group : TaskGroup} (h : group.validate = .ok ()) :
    0 ≤ groupDemand group := by
  rw [groupDemand_eq]
  apply List.sum_nonneg
  intro r hr
  obtain ⟨task, ht, rfl⟩ := List.mem_map.1 hr
  exact (TaskGroup.validate_ok h).2.2 task ht

/-! ## One placement -/

section Steps
variable [Crates]

/-- Some entry of the free list with room pays for one more instance of the group. -/
inductive Place (eval : Evaluation) (job : Job) (group : TaskGroup) :
    FreeList × Plan → FreeList × Plan → Prop
  | pay (l₁ : FreeList) (node : Node) (avail : Resources) (l₂ : FreeList) (plan : Plan) :
      hasRoom group (groupDemand group) (node, avail) = true →
      Place eval job group (l₁ ++ (node, avail) :: l₂, plan)
        (l₁ ++ (node, avail - groupDemand group) :: l₂,
          plan.push (makeAlloc eval plan job group (groupDemand group) node.id))

variable {eval : Evaluation} {job : Job} {group : TaskGroup} {st st' : FreeList × Plan}

theorem Place.nodes_eq (h : Place eval job group st st') :
    st'.1.map Prod.fst = st.1.map Prod.fst := by
  cases h
  simp

theorem placeSteps_nodes_eq {k : ℕ} (h : Steps (Place eval job group) k st st') :
    st'.1.map Prod.fst = st.1.map Prod.fst :=
  h.invariant (fun t => t.1.map Prod.fst = st.1.map Prod.fst)
    (fun _ _ hs hp => hp.nodes_eq.trans hs) rfl

omit [Crates] in
theorem decrementFirst_append (p : Node × Resources → Bool) (need : Resources)
    {l₁ l₂ : FreeList} {node : Node} {avail : Resources} (h₁ : ∀ e ∈ l₁, p e = false)
    (hp : p (node, avail) = true) :
    FreeList.decrementFirst p need (l₁ ++ (node, avail) :: l₂) =
      l₁ ++ (node, avail.decrement need) :: l₂ := by
  induction l₁ with
  | nil => simp [FreeList.decrementFirst, hp]
  | cons e l₁ ih =>
      obtain ⟨he, h₁⟩ := List.forall_mem_cons.1 h₁
      simp [FreeList.decrementFirst, he, ih h₁]

/-! ## The two loops -/

section Loops
variable (F : Type) [F64 F]

/-- The node that the next instance of a group goes to: the first one with room, or the best. -/
def choice (state : StateStore) (group : TaskGroup) (free : FreeList) : Option NodeId :=
  if group.affinities.isEmpty && group.spreads.isEmpty then
    (free.find? (hasRoom group (groupDemand group))).map fun e => e.1.id
  else (rank F state group (groupDemand group) free).head?.map fun best => best.node.id

theorem mem_of_rank_head {state : StateStore} {need : Resources} {free : FreeList}
    {best : Candidate F} (h : (rank F state group need free).head? = some best) :
    ∃ avail, (best.node, avail) ∈ free ∧ hasRoom group need (best.node, avail) = true := by
  have hmem := List.mem_of_mem_head? (Option.mem_def.2 h)
  simp only [rank, List.mem_insertionSort, List.mem_map, List.mem_filter] at hmem
  obtain ⟨⟨⟨node, avail⟩, idx⟩, ⟨hz, hroom⟩, rfl⟩ := hmem
  exact ⟨avail, List.fst_mem_of_mem_zipIdx hz, hroom⟩

theorem rank_head_eq_none_iff {state : StateStore} {need : Resources} {free : FreeList} :
    (rank F state group need free).head? = none ↔
      ∀ e ∈ free, hasRoom group need e = false := by
  constructor
  · intro h e he
    obtain ⟨i, hi⟩ := List.mem_iff_getElem?.1 he
    by_contra hroom
    have hmem : (e, i) ∈ free.zipIdx.filter fun e => hasRoom group need e.1 :=
      List.mem_filter.2 ⟨List.mk_mem_zipIdx_iff_getElem?.2 hi, by simpa using hroom⟩
    have hempty := List.head?_eq_none_iff.1 h
    rw [rank, ← List.length_eq_zero_iff, List.length_insertionSort, List.length_map,
      List.length_eq_zero_iff] at hempty
    rw [hempty] at hmem
    cases hmem
  · intro h
    cases hr : (rank F state group need free).head? with
    | none => rfl
    | some best =>
        obtain ⟨avail, hmem, hroom⟩ := mem_of_rank_head F hr
        rw [h _ hmem] at hroom
        cases hroom

theorem choice_eq_none_iff {state : StateStore} {free : FreeList} :
    choice F state group free = none ↔
      ∀ e ∈ free, hasRoom group (groupDemand group) e = false := by
  unfold choice
  split
  · simp
  · rw [Option.map_eq_none_iff, rank_head_eq_none_iff]

/-- One instance after the other goes to the node chosen for it, until `n` are placed or none is
chosen. -/
inductive Turn (eval : Evaluation) (state : StateStore) (job : Job) (group : TaskGroup) :
    ℕ → FreeList × Plan → FreeList × Plan → Prop
  | done (st : FreeList × Plan) : Turn eval state job group 0 st st
  | full (n : ℕ) {st : FreeList × Plan} :
      choice F state group st.1 = none → Turn eval state job group n st st
  | place {n : ℕ} {st st' st'' : FreeList × Plan} {nodeId : NodeId} :
      choice F state group st.1 = some nodeId → Place eval job group st st' →
      st'.2 = st.2.push (makeAlloc eval st.2 job group (groupDemand group) nodeId) →
      Turn eval state job group n st' st'' → Turn eval state job group (n + 1) st st''

variable {F} {state : StateStore}

theorem placeFirstFit_turn (hfast : (group.affinities.isEmpty && group.spreads.isEmpty) = true)
    (n : ℕ) (st : FreeList × Plan) : Turn F eval state job group n st
      (placeFirstFit eval job group (groupDemand group) n st) := by
  induction n generalizing st with
  | zero => exact .done st
  | succ n ih =>
      obtain ⟨free, plan⟩ := st
      have hchoice : choice F state group free =
          (free.find? (hasRoom group (groupDemand group))).map fun e => e.1.id := if_pos hfast
      rw [placeFirstFit]
      cases hf : free.find? (hasRoom group (groupDemand group)) with
      | none => exact .full _ (by rw [hchoice, hf]; rfl)
      | some entry =>
          obtain ⟨node, avail⟩ := entry
          obtain ⟨hroom, l₁, l₂, rfl, h₁⟩ := List.find?_eq_some_iff_append.1 hf
          refine .place (by rw [hchoice, hf]; rfl) (.pay l₁ node avail l₂ plan hroom) rfl ?_
          simp only [decrementFirst_append _ _ (fun e he => by simpa using h₁ e he) hroom]
          exact ih _

theorem placeScored_turn (hranked : (group.affinities.isEmpty && group.spreads.isEmpty) = false)
    (n : ℕ) (st : FreeList × Plan) (hids : ((st.1.map Prod.fst).map Node.id).Nodup) :
    Turn F eval state job group n st
      (placeScored F eval state job group (groupDemand group) n st) := by
  induction n generalizing st with
  | zero => exact .done st
  | succ n ih =>
      obtain ⟨free, plan⟩ := st
      have hchoice : choice F state group free =
          (rank F state group (groupDemand group) free).head?.map fun best => best.node.id :=
        if_neg (by simp [hranked])
      rw [placeScored]
      cases hr : (rank F state group (groupDemand group) free).head? with
      | none => exact .full _ (by rw [hchoice, hr]; rfl)
      | some best =>
          obtain ⟨avail, hmem, hroom⟩ := mem_of_rank_head F hr
          rw [hr, Option.map_some] at hchoice
          obtain ⟨l₁, l₂, rfl⟩ := List.append_of_mem hmem
          -- ids are distinct, so the lookup by id finds the ranked entry itself
          have h₁ : ∀ e ∈ l₁, (e.1.id == best.node.id) = false := by
            intro e he
            rw [beq_eq_false_iff_ne]
            intro heq
            simp only [List.map_append, List.map_cons, List.map_map, List.nodup_append] at hids
            exact hids.2.2 _ (List.mem_map.2 ⟨e, he, rfl⟩) _
              List.mem_cons_self heq
          have hfind : (l₁ ++ (best.node, avail) :: l₂).find?
              (fun e => e.1.id == best.node.id) = some (best.node, avail) :=
            List.find?_eq_some_iff_append.2
              ⟨by simp, l₁, l₂, rfl, fun e he => by simp [h₁ e he]⟩
          simp only [hfind, decrementFirst_append (fun e => e.1.id == best.node.id) _ h₁
            (beq_self_eq_true _)]
          have hstep : Place eval job group (l₁ ++ (best.node, avail) :: l₂, plan)
              (l₁ ++ (best.node, avail.decrement (groupDemand group)) :: l₂,
                plan.push (makeAlloc eval plan job group (groupDemand group) best.node.id)) :=
            .pay l₁ best.node avail l₂ plan hroom
          exact .place hchoice hstep rfl (ih _ (hstep.nodes_eq.symm ▸ hids))

variable (F)

theorem placeGroup_turn (eval : Evaluation) (job : Job) (group : TaskGroup)
    (state : StateStore) (st : FreeList × Plan)
    (hids : ((st.1.map Prod.fst).map Node.id).Nodup) :
    Turn F eval state job group (max group.count 0).toNat st
      (placeGroup F eval state job st group) := by
  unfold placeGroup
  split
  next hfast => exact placeFirstFit_turn hfast _ st
  next hranked => exact placeScored_turn (by simpa using hranked) _ st hids

/-- Up to `n` instances are placed, fewer only if no entry has room for another one. -/
def Fills (eval : Evaluation) (job : Job) (group : TaskGroup) (n : ℕ)
    (st st' : FreeList × Plan) : Prop :=
  ∃ k ≤ n, Steps (Place eval job group) k st st' ∧
    (k = n ∨ ∀ e ∈ st'.1, hasRoom group (groupDemand group) e = false)

variable {F}

theorem Turn.fills {n : ℕ} (h : Turn F eval state job group n st st') :
    Fills eval job group n st st' := by
  induction h with
  | done st => exact ⟨0, le_rfl, .refl _, .inl rfl⟩
  | full n hnone => exact ⟨0, Nat.zero_le _, .refl _, .inr ((choice_eq_none_iff F).1 hnone)⟩
  | place _ hp _ _ ih =>
      obtain ⟨k, hk, hsteps, hend⟩ := ih
      exact ⟨k + 1, by omega, .head hp hsteps, hend.imp_left (by omega)⟩

end Loops

end Steps

/-! ## Whole plans -/

theorem initialFree_nodes (s : StateStore) :
    (initialFree s).map Prod.fst = s.listNodes.filter nodeEligible := by
  simp [initialFree, Function.comp_def]

theorem StateStore.WellFormed.nodup_initialFree {s : StateStore} (hs : s.WellFormed) :
    (((initialFree s).map Prod.fst).map Node.id).Nodup := by
  rw [initialFree_nodes]
  exact hs.nodup_nodeIds.sublist (List.filter_sublist.map _)

section Runs
variable [Crates] {eval : Evaluation} {job : Job}

/-- The turns of the task groups, at most `count` placements in each. -/
inductive PlanRun (eval : Evaluation) (job : Job) :
    List TaskGroup → FreeList × Plan → FreeList × Plan → Prop
  | nil (st : FreeList × Plan) : PlanRun eval job [] st st
  | cons {group : TaskGroup} {groups : List TaskGroup} {k : ℕ} {st st' st'' : FreeList × Plan} :
      k ≤ (max group.count 0).toNat → Steps (Place eval job group) k st st' →
      PlanRun eval job groups st' st'' → PlanRun eval job (group :: groups) st st''

theorem PlanRun.invariant (Inv : FreeList × Plan → Prop) {groups : List TaskGroup}
    (hstep : ∀ group ∈ groups, ∀ st st', Inv st → Place eval job group st st' → Inv st')
    {st st' : FreeList × Plan} (h : PlanRun eval job groups st st') (hst : Inv st) : Inv st' := by
  induction h with
  | nil => exact hst
  | cons _ hs _ ih =>
      refine ih (fun group hg => hstep group (by simp [hg])) ?_
      exact hs.invariant Inv (hstep _ (by simp)) hst

variable (F : Type) [F64 F]

theorem foldl_placeGroup_run (eval : Evaluation) (job : Job) (state : StateStore)
    (groups : List TaskGroup) (st : FreeList × Plan)
    (hids : ((st.1.map Prod.fst).map Node.id).Nodup) :
    PlanRun eval job groups st (groups.foldl (placeGroup F eval state job) st) := by
  induction groups generalizing st with
  | nil => exact .nil st
  | cons group groups ih =>
      obtain ⟨k, hk, hs, _⟩ := (placeGroup_turn F eval job group state st hids).fills
      exact .cons hk hs (ih _ ((placeSteps_nodes_eq hs).symm ▸ hids))

/-- Every plan is a run of placements over the groups of the job, in their order. -/
theorem processEval_run (eval : Evaluation) {s : StateStore} (hs : s.WellFormed) {job : Job}
    (hj : s.getJob eval.jobId = some job) :
    ∃ free, PlanRun eval job job.taskGroups (initialFree s, {}) (free, processEval F eval s) := by
  have hrun := foldl_placeGroup_run F eval job s job.taskGroups
    (initialFree s, {}) hs.nodup_initialFree
  exact ⟨_, by simpa only [processEval, hj] using hrun⟩

end Runs
end NomadRs
