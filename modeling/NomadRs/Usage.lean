import NomadRs.Placement

/-!
# Capacity in use, and what a plan adds to it

`usage` is what the live allocations of a node reserve. A plan computed from a well-formed store
fits: on every node it places on, the usage of the store and the plan's own charge together stay
within the node's resources (`processEval_covered`). Committing allocations adds at most their
charge, since an allocation that overwrites another one gives the old reservation back
(`usage_commitAll_le`).
-/

namespace NomadRs

def liveOn (s : StateStore) (nodeId : NodeId) : List Allocation :=
  (s.allocsByNode nodeId).filter fun a => isLive a.clientStatus

def usage (s : StateStore) (nodeId : NodeId) : Resources :=
  ((liveOn s nodeId).map Allocation.resources).sum

def charge (nodeId : NodeId) (a : Allocation) : Resources :=
  if a.nodeId = nodeId ∧ isLive a.clientStatus = true then a.resources else 0

def planUsage (nodeId : NodeId) (allocs : List Allocation) : Resources :=
  (allocs.map (charge nodeId)).sum

theorem sum_live_eq_planUsage (nodeId : NodeId) (allocs : List Allocation) :
    (((allocs.filter fun a => a.nodeId == nodeId).filter fun a => isLive a.clientStatus).map
      Allocation.resources).sum = planUsage nodeId allocs := by
  induction allocs with
  | nil => rfl
  | cons a allocs ih =>
      rw [planUsage, List.map_cons, List.sum_cons, ← planUsage, ← ih]
      by_cases hn : a.nodeId = nodeId <;> by_cases hl : isLive a.clientStatus = true <;>
        simp [charge, hn, hl]

theorem usage_eq_sumBy (s : StateStore) (nodeId : NodeId) :
    usage s nodeId = HashMap.sumBy (charge nodeId) s.allocs := sum_live_eq_planUsage _ _

theorem foldl_decrement (allocs : List Allocation) (r : Resources) :
    allocs.foldl (fun free a => free.decrement a.resources) r =
      r - (allocs.map Allocation.resources).sum := by
  induction allocs generalizing r with
  | nil => simp
  | cons a allocs ih =>
      rw [List.foldl_cons, ih, Resources.decrement_eq, List.map_cons, List.sum_cons]
      abel

/-- Free capacity is what the live allocations leave over. -/
theorem freeCapacity_eq (node : Node) (s : StateStore) :
    freeCapacity node s = node.resources - usage s node.id := foldl_decrement _ _

theorem charge_nonneg {a : Allocation} (h : 0 ≤ a.resources) (nodeId : NodeId) :
    0 ≤ charge nodeId a := by
  unfold charge
  split
  · exact h
  · exact le_rfl

theorem planUsage_append (nodeId : NodeId) (as bs : List Allocation) :
    planUsage nodeId (as ++ bs) = planUsage nodeId as + planUsage nodeId bs := by
  simp [planUsage]

theorem planUsage_nonneg {as : List Allocation} (h : ∀ a ∈ as, 0 ≤ a.resources)
    (nodeId : NodeId) : 0 ≤ planUsage nodeId as := by
  apply List.sum_nonneg
  intro r hr
  obtain ⟨a, ha, rfl⟩ := List.mem_map.1 hr
  exact charge_nonneg (h a ha) nodeId

theorem planUsage_eq_zero {as : List Allocation} {nodeId : NodeId}
    (h : ∀ a ∈ as, a.nodeId ≠ nodeId) : planUsage nodeId as = 0 := by
  apply List.sum_eq_zero
  intro r hr
  obtain ⟨a, ha, rfl⟩ := List.mem_map.1 hr
  simp [charge, h a ha]

/-! ## Committing allocations -/

/-- The store after a list of accepted `UpsertAlloc` commands. -/
def StateStore.commitAll (s : StateStore) (as : List Allocation) : StateStore :=
  as.foldl (fun s a => s.applied (.upsertAlloc a)) s

namespace StateStore

@[simp] theorem commitAll_nil (s : StateStore) : s.commitAll [] = s := rfl

@[simp] theorem commitAll_cons (s : StateStore) (a : Allocation) (as : List Allocation) :
    s.commitAll (a :: as) = (s.applied (.upsertAlloc a)).commitAll as := rfl

theorem commitAll_append (s : StateStore) (as bs : List Allocation) :
    s.commitAll (as ++ bs) = (s.commitAll as).commitAll bs := List.foldl_append

theorem commitAll_eq (s : StateStore) (as : List Allocation) :
    s.commitAll as = { s with allocs := (s.commitAll as).allocs } := by
  induction as generalizing s with
  | nil => rfl
  | cons a as ih =>
      rw [commitAll_cons, ih]
      rfl

@[simp] theorem commitAll_jobs (s : StateStore) (as : List Allocation) :
    (s.commitAll as).jobs = s.jobs := by rw [commitAll_eq]

@[simp] theorem commitAll_nodes (s : StateStore) (as : List Allocation) :
    (s.commitAll as).nodes = s.nodes := by rw [commitAll_eq]

@[simp] theorem getNode_commitAll (s : StateStore) (as : List Allocation) (id : NodeId) :
    (s.commitAll as).getNode id = s.getNode id := by rw [getNode, commitAll_nodes, getNode]

theorem WellFormed.commitAll {s : StateStore} (hs : s.WellFormed) {as : List Allocation}
    (has : ∀ a ∈ as, a.validate = .ok ()) : (s.commitAll as).WellFormed := by
  induction as generalizing s with
  | nil => exact hs
  | cons a as ih =>
      obtain ⟨ha, has⟩ := List.forall_mem_cons.1 has
      exact ih (hs.applied ha) has

theorem getAlloc_commitAll_of_notMem {s : StateStore} {as : List Allocation} {id : AllocId}
    (h : ∀ a ∈ as, a.id ≠ id) : (s.commitAll as).getAlloc id = s.getAlloc id := by
  induction as generalizing s with
  | nil => rfl
  | cons a as ih =>
      obtain ⟨ha, has⟩ := List.forall_mem_cons.1 h
      rw [commitAll_cons, ih has]
      exact AList.lookup_insert_ne ha.symm

theorem getAlloc_commitAll_of_mem {s : StateStore} {as : List Allocation} {a : Allocation}
    (hids : (as.map Allocation.id).Nodup) (ha : a ∈ as) :
    (s.commitAll as).getAlloc a.id = some a := by
  induction as generalizing s with
  | nil => cases ha
  | cons b as ih =>
      rw [List.map_cons, List.nodup_cons] at hids
      rcases List.mem_cons.1 ha with rfl | ha
      · rw [commitAll_cons, getAlloc_commitAll_of_notMem fun b hb heq =>
          hids.1 (List.mem_map.2 ⟨b, hb, heq⟩)]
        exact AList.lookup_insert _
      · exact ih hids.2 ha

theorem mem_listAllocs_commitAll {s : StateStore} {as : List Allocation} {a : Allocation}
    (h : a ∈ (s.commitAll as).listAllocs) : a ∈ as ∨ a ∈ s.listAllocs := by
  induction as generalizing s with
  | nil => exact .inr h
  | cons b as ih =>
      rcases ih h with h | h
      · exact .inl (List.mem_cons_of_mem _ h)
      · rcases HashMap.mem_values_insert h with rfl | h
        · exact .inl List.mem_cons_self
        · exact .inr h

end StateStore

theorem sumBy_commitAll_le {M : Type*} [AddCommMonoid M] [PartialOrder M] [IsOrderedAddMonoid M]
    (f : Allocation → M) {s : StateStore} {as : List Allocation}
    (hs : ∀ a ∈ s.listAllocs, 0 ≤ f a) (has : ∀ a ∈ as, 0 ≤ f a) :
    HashMap.sumBy f (s.commitAll as).allocs ≤ (as.map f).sum + HashMap.sumBy f s.allocs := by
  induction as generalizing s with
  | nil => simp
  | cons a as ih =>
      obtain ⟨ha, has⟩ := List.forall_mem_cons.1 has
      have hs' : ∀ b ∈ (s.applied (.upsertAlloc a)).listAllocs, 0 ≤ f b := by
        intro b hb
        rcases HashMap.mem_values_insert hb with rfl | hb
        · exact ha
        · exact hs b hb
      calc
        _ ≤ (as.map f).sum + HashMap.sumBy f (s.applied (.upsertAlloc a)).allocs := ih hs' has
        _ ≤ (as.map f).sum + (f a + HashMap.sumBy f s.allocs) := by
          gcongr
          exact HashMap.sumBy_insert_le f hs a.id a
        _ = _ := by
          rw [List.map_cons, List.sum_cons, ← add_assoc, add_comm (as.map f).sum]

theorem usage_commitAll_le {s : StateStore} {as : List Allocation}
    (hs : ∀ a ∈ s.listAllocs, 0 ≤ a.resources) (has : ∀ a ∈ as, 0 ≤ a.resources)
    (nodeId : NodeId) : usage (s.commitAll as) nodeId ≤ planUsage nodeId as + usage s nodeId := by
  rw [usage_eq_sumBy, usage_eq_sumBy]
  exact sumBy_commitAll_le (charge nodeId) (fun a ha => charge_nonneg (hs a ha) nodeId)
    fun a ha => charge_nonneg (has a ha) nodeId

theorem sumBy_commitAll_of_fresh {M : Type*} [AddCommMonoid M] (f : Allocation → M)
    {s : StateStore} {as : List Allocation} (hids : (as.map Allocation.id).Nodup)
    (hnew : ∀ a ∈ as, s.getAlloc a.id = none) :
    HashMap.sumBy f (s.commitAll as).allocs = HashMap.sumBy f s.allocs + (as.map f).sum := by
  induction as generalizing s with
  | nil => simp
  | cons a as ih =>
      rw [List.map_cons, List.nodup_cons] at hids
      obtain ⟨ha, hnew⟩ := List.forall_mem_cons.1 hnew
      have hone : HashMap.sumBy f (s.applied (.upsertAlloc a)).allocs =
          f a + HashMap.sumBy f s.allocs :=
        (HashMap.sumBy_insert _ _ _ _).trans (by rw [HashMap.erase_eq_self ha])
      have hnew' : ∀ b ∈ as, (s.applied (.upsertAlloc a)).getAlloc b.id = none := by
        intro b hb
        rw [← hnew b hb]
        exact AList.lookup_insert_ne fun heq => hids.1 (List.mem_map.2 ⟨b, hb, heq⟩)
      rw [StateStore.commitAll_cons, ih hids.2 hnew', hone, List.map_cons, List.sum_cons]
      abel

theorem usage_commitAll_of_fresh {s : StateStore} {as : List Allocation}
    (hids : (as.map Allocation.id).Nodup) (hnew : ∀ a ∈ as, s.getAlloc a.id = none)
    (nodeId : NodeId) :
    usage (s.commitAll as) nodeId = usage s nodeId + planUsage nodeId as := by
  rw [usage_eq_sumBy, usage_eq_sumBy]
  exact sumBy_commitAll_of_fresh (charge nodeId) hids hnew

theorem length_listAllocs_commitAll {s : StateStore} {as : List Allocation}
    (hids : (as.map Allocation.id).Nodup) (hnew : ∀ a ∈ as, s.getAlloc a.id = none) :
    (s.commitAll as).listAllocs.length = s.listAllocs.length + as.length := by
  have hcount := sumBy_commitAll_of_fresh (fun _ => 1) hids hnew
  simpa [HashMap.sumBy, StateStore.listAllocs] using hcount

theorem usage_commitAll_le_plan {s : StateStore} {plan done rest : List Allocation}
    (hs : ∀ a ∈ s.listAllocs, 0 ≤ a.resources) (hplan : plan = done ++ rest)
    (hpos : ∀ a ∈ plan, 0 ≤ a.resources) (nodeId : NodeId) :
    usage (s.commitAll done) nodeId ≤ usage s nodeId + planUsage nodeId plan := by
  subst hplan
  obtain ⟨hdone, hrest⟩ := List.forall_mem_append.1 hpos
  calc
    usage (s.commitAll done) nodeId ≤ planUsage nodeId done + usage s nodeId :=
      usage_commitAll_le hs hdone nodeId
    _ = usage s nodeId + planUsage nodeId done := add_comm _ _
    _ ≤ usage s nodeId + planUsage nodeId (done ++ rest) := by
      rw [planUsage_append]
      gcongr
      exact le_add_of_nonneg_right (planUsage_nonneg hrest _)

/-- Applying a plan commits a prefix of it, all of it when the result is `Ok`. -/
theorem applyPlan_spec (fsm : Fsm) (as : List Allocation) :
    ∃ done rest, as = done ++ rest ∧ (applyPlan fsm as).2.state = fsm.state.commitAll done ∧
      (∀ a ∈ done, a.validate = .ok ()) ∧
      (((applyPlan fsm as).1 = .ok () ∧ rest = []) ∨
        ∃ e, (applyPlan fsm as).1 = .error e ∧ ∃ a ∈ rest.head?, a.validate ≠ .ok ()) := by
  induction as generalizing fsm with
  | nil => exact ⟨[], [], rfl, rfl, by simp, .inl ⟨rfl, rfl⟩⟩
  | cons a as ih =>
      rw [applyPlan]
      rcases fsm.apply_cases (.upsertAlloc a) with ⟨ha, h⟩ | ⟨ha, e, h⟩
      · obtain ⟨done, rest, rfl, hst, hval, hres⟩ := ih ⟨fsm.state.applied (.upsertAlloc a)⟩
        refine ⟨a :: done, rest, rfl, ?_, List.forall_mem_cons.2 ⟨ha, hval⟩, ?_⟩
        · simp only [h, hst, StateStore.commitAll_cons]
        · simpa only [h] using hres
      · exact ⟨[], a :: as, rfl, by simp [h], by simp, .inr ⟨e, by simp [h], a, rfl, ha⟩⟩

theorem applyPlan_of_valid {fsm : Fsm} {as : List Allocation}
    (h : ∀ a ∈ as, a.validate = .ok ()) :
    applyPlan fsm as = (.ok (), ⟨fsm.state.commitAll as⟩) := by
  obtain ⟨done, rest, hsplit, hstate, _, hend⟩ := applyPlan_spec fsm as
  rcases hend with ⟨hok, rfl⟩ | ⟨e, _, a, ha, hinvalid⟩
  · rw [List.append_nil] at hsplit
    rw [← hsplit] at hstate
    exact Prod.ext hok (congrArg Fsm.mk hstate)
  · have hmem : a ∈ as := by
      rw [hsplit]
      exact List.mem_append_right _ (List.mem_of_mem_head? ha)
    exact absurd (h a hmem) hinvalid

/-! ## Plans fit -/

section Plans
variable [Crates] {eval : Evaluation} {job : Job}

/-- The accounting of the free list: every entry holds what the store and the plan leave over,
and no entry that has paid is in debt. -/
structure PlanInv (s : StateStore) (st : FreeList × Plan) : Prop where
  distinct : ((st.1.map Prod.fst).map Node.id).Nodup
  avail : ∀ e ∈ st.1,
    e.2 = e.1.resources - usage s e.1.id - planUsage e.1.id st.2.allocs
  paid : ∀ a ∈ st.2.allocs, ∃ e ∈ st.1, e.1.id = a.nodeId ∧ 0 ≤ e.2

omit [Crates] in
theorem PlanInv.initial {s : StateStore} (hs : s.WellFormed) : PlanInv s (initialFree s, {}) where
  distinct := hs.nodup_initialFree
  avail e he := by
    obtain ⟨node, _, rfl⟩ := List.mem_map.1 he
    simp [freeCapacity_eq, planUsage]
  paid := by simp

theorem PlanInv.place {s : StateStore} {group : TaskGroup} {st st' : FreeList × Plan}
    (hst : PlanInv s st) (h : Place eval job group st st') : PlanInv s st' := by
  have hnodes := h.nodes_eq
  obtain ⟨l₁, node, avail, l₂, plan, hroom⟩ := h
  have hfit : groupDemand group ≤ avail := by
    rw [hasRoom, Bool.and_eq_true] at hroom
    exact fits_iff.1 hroom.1
  set need := groupDemand group
  set alloc := makeAlloc eval plan job group need node.id
  have hcharge : charge node.id alloc = need := by simp [charge, alloc, makeAlloc, isLive]
  have hother {id : NodeId} (hid : id ≠ node.id) : charge id alloc = 0 := by
    simp [charge, alloc, makeAlloc, hid.symm]
  have hdist : ∀ e ∈ l₁ ++ l₂, e.1.id ≠ node.id := by
    have hd := hst.distinct
    simp only [List.map_append, List.map_cons, List.map_map] at hd
    have hd' := (List.nodup_middle.1 hd)
    rw [List.nodup_cons, ← List.map_append, List.mem_map] at hd'
    exact fun e he heq => hd'.1 ⟨e, he, heq⟩
  refine ⟨hnodes ▸ hst.distinct, ?_, ?_⟩
  · intro e he
    change e.2 = e.1.resources - usage s e.1.id - planUsage e.1.id (plan.allocs ++ [alloc])
    rw [planUsage_append, planUsage, planUsage, List.map_singleton, List.sum_singleton]
    rw [List.mem_append, List.mem_cons, or_left_comm] at he
    rcases he with rfl | he
    · rw [hcharge, ← planUsage]
      have hold := hst.avail (node, avail) (by simp)
      change avail = _ at hold
      change avail - need = _
      rw [hold]
      abel
    · rw [hother (hdist e (List.mem_append.2 he)), add_zero, ← planUsage]
      exact hst.avail e (by simpa using he.imp_right Or.inr)
  · intro a ha
    have hnew : (node, avail - need) ∈ l₁ ++ (node, avail - need) :: l₂ := by simp
    rcases List.mem_append.1 ha with ha | ha
    · obtain ⟨e, he, hid, hpos⟩ := hst.paid a ha
      rw [List.mem_append, List.mem_cons, or_left_comm] at he
      rcases he with rfl | he
      · exact ⟨_, hnew, hid, sub_nonneg.2 hfit⟩
      · exact ⟨e, by simpa using he.imp_right Or.inr, hid, hpos⟩
    · rw [List.mem_singleton] at ha
      subst ha
      exact ⟨_, hnew, rfl, sub_nonneg.2 hfit⟩

/-- What every allocation of a plan carries. -/
def PlannedFor (eval : Evaluation) (job : Job) (a : Allocation) : Prop :=
  ∃ group ∈ job.taskGroups, a.taskGroup = group.name ∧ a.resources = groupDemand group ∧
    a.jobId = job.name ∧ a.clientStatus = .pending ∧ a.desiredStatus = .run ∧
    a.evalId = eval.id ∧ ∃ i : ℕ, a.id = s!"{eval.id}-{i}"

variable (F : Type) [F64 F] {s : StateStore}

theorem processEval_planned (hs : s.WellFormed) (hj : s.getJob eval.jobId = some job) :
    ∀ a ∈ (processEval F eval s).allocs, PlannedFor eval job a := by
  obtain ⟨free, hrun⟩ := processEval_run F eval hs hj
  refine hrun.invariant (fun st => ∀ a ∈ st.2.allocs, PlannedFor eval job a) ?_ (by simp)
  rintro group hg _ _ hst ⟨l₁, node, avail, l₂, plan, _⟩ a ha
  rcases List.mem_append.1 ha with ha | ha
  · exact hst a ha
  · rw [List.mem_singleton] at ha
    subst ha
    exact ⟨group, hg, rfl, rfl, rfl, rfl, rfl, rfl, _, rfl⟩

/-- Processing commits the plan computed from the state it starts in. -/
theorem processAndApply_eq (eval : Evaluation) (fsm : Fsm) :
    processAndApply F eval fsm =
      ((applyPlan fsm (processEval F eval fsm.state).allocs).1.map fun _ =>
        processEval F eval fsm.state,
      (applyPlan fsm (processEval F eval fsm.state).allocs).2) := by
  simp only [processAndApply]
  split
  all_goals next heq => rw [heq]; rfl

theorem processEval_of_no_job (hj : s.getJob eval.jobId = none) :
    (processEval F eval s).allocs = [] := by simp only [processEval, hj]

omit [Crates] in
theorem StateStore.WellFormed.group_ok (hs : s.WellFormed) {k : String}
    (hj : s.getJob k = some job) {group : TaskGroup} (hg : group ∈ job.taskGroups) :
    group.validate = .ok () := (Job.validate_ok (hs.jobs _ _ hj).2).2 group hg

theorem processEval_nonneg (hs : s.WellFormed) :
    ∀ a ∈ (processEval F eval s).allocs, 0 ≤ a.resources := by
  cases hj : s.getJob eval.jobId with
  | none => simp [processEval_of_no_job F hj]
  | some job =>
      intro a ha
      obtain ⟨group, hg, _, hres, _⟩ := processEval_planned F hs hj a ha
      rw [hres]
      exact groupDemand_nonneg (hs.group_ok hj hg)

/-- A plan fits on every node it places on, together with what is live there already. -/
theorem processEval_covered (hs : s.WellFormed) :
    ∀ a ∈ (processEval F eval s).allocs, ∃ node, s.getNode a.nodeId = some node ∧
      nodeEligible node = true ∧
      usage s a.nodeId + planUsage a.nodeId (processEval F eval s).allocs ≤ node.resources := by
  cases hj : s.getJob eval.jobId with
  | none => simp [processEval_of_no_job F hj]
  | some job =>
      intro a ha
      obtain ⟨free, hrun⟩ := processEval_run F eval hs hj
      have hinv := hrun.invariant (PlanInv s) (fun _ _ _ _ hst hp => hst.place hp)
        (.initial hs)
      have hnodes := hrun.invariant
        (fun st => st.1.map Prod.fst = s.listNodes.filter nodeEligible)
        (fun _ _ _ _ hst hp => hp.nodes_eq.trans hst) (initialFree_nodes s)
      obtain ⟨e, he, hid, hpos⟩ := hinv.paid a ha
      have hmem : e.1 ∈ s.listNodes.filter nodeEligible :=
        hnodes ▸ List.mem_map.2 ⟨e, he, rfl⟩
      obtain ⟨hstored, helig⟩ := List.mem_filter.1 hmem
      refine ⟨e.1, hid ▸ hs.getNode_of_mem hstored, helig, ?_⟩
      have havail := hinv.avail e he
      change e.2 = e.1.resources - usage s e.1.id -
        planUsage e.1.id (processEval F eval s).allocs at havail
      rw [havail, hid, sub_sub] at hpos
      exact sub_nonneg.1 hpos

/-- Every allocation of a plan passes its check. -/
theorem processEval_valid (hs : s.WellFormed) :
    ∀ a ∈ (processEval F eval s).allocs, a.validate = .ok () := by
  cases hj : s.getJob eval.jobId with
  | none => simp [processEval_of_no_job F hj]
  | some job =>
      intro a ha
      obtain ⟨group, hg, hgroup, _, hjob, _, _, _, i, hid⟩ := processEval_planned F hs hj a ha
      obtain ⟨node, hnode, _⟩ := processEval_covered F hs a ha
      obtain ⟨hkey, hnodeOk⟩ := hs.nodes _ _ hnode
      have hgroupOk := (TaskGroup.validate_ok (hs.group_ok hj hg)).1
      rw [Allocation.validate_eq_ok, hgroup, hjob, ← hkey]
      refine ⟨?_, Node.validate_ok hnodeOk, (Job.validate_ok (hs.jobs _ _ hj).2).1, hgroupOk⟩
      rw [hid]
      simp [toString]

/-- So a plan computed from a well-formed store is committed whole. -/
theorem processAndApply_of_wellFormed {fsm : Fsm} (hs : fsm.state.WellFormed)
    (eval : Evaluation) : processAndApply F eval fsm = (.ok (processEval F eval fsm.state),
      ⟨fsm.state.commitAll (processEval F eval fsm.state).allocs⟩) := by
  rw [processAndApply_eq, applyPlan_of_valid (processEval_valid F hs)]
  rfl

theorem processAndApply_wellFormed {fsm : Fsm} (hs : fsm.state.WellFormed) (eval : Evaluation) :
    (processAndApply F eval fsm).2.state.WellFormed := by
  rw [processAndApply_of_wellFormed F hs]
  exact hs.commitAll (processEval_valid F hs)

end Plans
end NomadRs
