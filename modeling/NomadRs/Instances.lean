import NomadRs.Usage

/-!
# Instances of a task group

A plan never holds more than `count` allocations of a group (`placed_le_count`), nor more than the
nodes have room for (`hasRoomFor_placed`). What is live of the group already plays no part in
either bound.
-/

namespace NomadRs

def instanceOf (job : Job) (group : TaskGroup) (a : Allocation) : Bool :=
  a.jobId == job.name && a.taskGroup == group.name && isLive a.clientStatus

def instances (s : StateStore) (job : Job) (group : TaskGroup) : ℕ :=
  s.listAllocs.countP (instanceOf job group)

theorem countP_eq_sum_toNat {α : Type*} (p : α → Bool) (l : List α) :
    l.countP p = (l.map fun a => (p a).toNat).sum := by
  induction l with
  | nil => rfl
  | cons a l ih =>
      rw [List.countP_cons, List.map_cons, List.sum_cons, ih, add_comm]
      cases p a <;> rfl

theorem instances_eq_sumBy (s : StateStore) (job : Job) (group : TaskGroup) :
    instances s job group =
      HashMap.sumBy (fun a => (instanceOf job group a).toNat) s.allocs := countP_eq_sum_toNat _ _

theorem instances_commitAll_le (s : StateStore) (as : List Allocation) (job : Job)
    (group : TaskGroup) : instances (s.commitAll as) job group ≤
      as.countP (instanceOf job group) + instances s job group := by
  rw [instances_eq_sumBy, instances_eq_sumBy, countP_eq_sum_toNat]
  exact sumBy_commitAll_le _ (fun _ _ => Nat.zero_le _) fun _ _ => Nat.zero_le _

theorem countP_commitAll_of_fresh (p : Allocation → Bool) {s : StateStore} {as : List Allocation}
    (hids : (as.map Allocation.id).Nodup) (hnew : ∀ a ∈ as, s.getAlloc a.id = none) :
    (s.commitAll as).listAllocs.countP p = s.listAllocs.countP p + as.countP p := by
  simp only [countP_eq_sum_toNat]
  exact sumBy_commitAll_of_fresh (fun a => (p a).toNat) hids hnew

/-! ## How many a plan places -/

section Plans
variable [Crates] {eval : Evaluation} {job : Job} {group : TaskGroup} {st st' : FreeList × Plan}

def Plan.placed (plan : Plan) (name : String) : ℕ :=
  plan.allocs.countP fun a => a.taskGroup == name

theorem placeSteps_placed {k : ℕ} (h : Steps (Place eval job group) k st st') (name : String) :
    st'.2.placed name = st.2.placed name + if group.name = name then k else 0 := by
  induction h with
  | refl => simp
  | head hp _ ih =>
      obtain ⟨l₁, node, avail, l₂, plan, _⟩ := hp
      rw [ih]
      by_cases hname : group.name = name
      · simp [Plan.placed, Plan.push, makeAlloc, hname, Nat.add_assoc, Nat.add_comm]
      · simp [Plan.placed, Plan.push, makeAlloc, hname]

theorem PlanRun.placed_le {groups : List TaskGroup} (h : PlanRun eval job groups st st')
    (name : String) : st'.2.placed name ≤ st.2.placed name +
      (groups.map fun g => if g.name = name then (max g.count 0).toNat else 0).sum := by
  induction h with
  | nil => simp
  | @cons g _ k _ _ _ hk hs _ ih =>
      rw [placeSteps_placed hs] at ih
      rw [List.map_cons, List.sum_cons]
      have hturn : (if g.name = name then k else 0) ≤
          if g.name = name then (max g.count 0).toNat else 0 := by
        split
        · exact hk
        · exact le_rfl
      omega

variable (F : Type) [F64 F] {s : StateStore}

/-- One plan respects the count of every group. -/
theorem placed_le_count (hs : s.WellFormed) (hj : s.getJob eval.jobId = some job)
    (hnames : (job.taskGroups.map TaskGroup.name).Nodup) (hg : group ∈ job.taskGroups) :
    ((processEval F eval s).placed group.name : Int) ≤ group.count := by
  obtain ⟨free, hrun⟩ := processEval_run F eval hs hj
  have hother : ∀ g, g ≠ group → g ∈ job.taskGroups →
      (if g.name = group.name then (max g.count 0).toNat else 0) = 0 := by
    intro g hne hmem
    exact if_neg fun hname => hne (List.inj_on_of_nodup_map hnames hmem hg hname)
  have hle : (processEval F eval s).placed group.name ≤ 0 + (max group.count 0).toNat := by
    refine (hrun.placed_le group.name).trans_eq ?_
    rw [List.sum_map_eq_nsmul_single group _ hother,
      List.count_eq_one_of_mem hnames.of_map hg, one_smul, if_pos rfl]
    rfl
  have hcount := (TaskGroup.validate_ok (hs.group_ok hj hg)).2.1
  omega

/-- Every allocation of a plan is on a stored node that meets the constraints of its group. -/
theorem processEval_meets (hs : s.WellFormed) (hj : s.getJob eval.jobId = some job) :
    ∀ a ∈ (processEval F eval s).allocs, ∃ group ∈ job.taskGroups, a.taskGroup = group.name ∧
      ∃ node, s.getNode a.nodeId = some node ∧ meetsConstraints node group = true := by
  obtain ⟨free, hrun⟩ := processEval_run F eval hs hj
  have hinv := hrun.invariant (fun st => st.1.map Prod.fst = s.listNodes.filter nodeEligible ∧
      ∀ a ∈ st.2.allocs, ∃ group ∈ job.taskGroups, a.taskGroup = group.name ∧
        ∃ node, s.getNode a.nodeId = some node ∧ meetsConstraints node group = true)
    ?_ ⟨initialFree_nodes s, by simp⟩
  · exact hinv.2
  · rintro group hg _ _ ⟨hnodes, hmeets⟩ hp
    refine ⟨hp.nodes_eq.trans hnodes, ?_⟩
    obtain ⟨l₁, node, avail, l₂, plan, hroom⟩ := hp
    intro a ha
    rcases List.mem_append.1 ha with ha | ha
    · exact hmeets a ha
    · have hmem : node ∈ s.listNodes.filter nodeEligible := hnodes ▸ by simp
      rw [hasRoom, Bool.and_eq_true] at hroom
      rw [List.mem_singleton.1 ha]
      exact ⟨group, hg, rfl, node, hs.getNode_of_mem (List.mem_filter.1 hmem).1, hroom.2⟩

/-! ## Room for a group -/

/-- `n` more instances of the group have room: each gets a placeable node, and every node holds
all that it gets beside what is live on it. -/
def HasRoomFor (s : StateStore) (group : TaskGroup) (n : ℕ) : Prop :=
  ∃ ids : List NodeId, ids.length = n ∧ ∀ id ∈ ids, ∃ node, s.getNode id = some node ∧
    nodeEligible node = true ∧
    hasRoom group (ids.count id • groupDemand group) (node, freeCapacity node s) = true

omit [Crates] in
theorem count_nsmul_le_planUsage {as : List Allocation} {need : Resources} {name : String}
    (hpos : ∀ a ∈ as, 0 ≤ a.resources)
    (hneed : ∀ a ∈ as, a.taskGroup = name → a.resources = need ∧ isLive a.clientStatus = true)
    (id : NodeId) :
    ((as.filter fun a => a.taskGroup == name).map Allocation.nodeId).count id • need ≤
      planUsage id as := by
  induction as with
  | nil => simp [planUsage]
  | cons a as ih =>
      obtain ⟨ha, hpos⟩ := List.forall_mem_cons.1 hpos
      obtain ⟨hna, hneed⟩ := List.forall_mem_cons.1 hneed
      have hrest := ih hpos hneed
      have hsplit : planUsage id (a :: as) = charge id a + planUsage id as := List.sum_cons
      rw [hsplit]
      by_cases hname : a.taskGroup = name
      · obtain ⟨hres, hlive⟩ := hna hname
        rw [List.filter_cons_of_pos (by simpa using hname), List.map_cons, List.count_cons]
        by_cases hid : a.nodeId = id
        · rw [if_pos (by simpa using hid), succ_nsmul, add_comm]
          have hcharge : charge id a = need := by rw [charge, if_pos ⟨hid, hlive⟩, hres]
          rw [hcharge]
          gcongr
        · rw [if_neg (by simpa using hid), Nat.add_zero]
          exact hrest.trans (le_add_of_nonneg_left (charge_nonneg ha id))
      · rw [List.filter_cons_of_neg (by simpa using hname)]
        exact hrest.trans (le_add_of_nonneg_left (charge_nonneg ha id))

theorem hasRoomFor_placed (hs : s.WellFormed) (hj : s.getJob eval.jobId = some job)
    (hnames : (job.taskGroups.map TaskGroup.name).Nodup) (hg : group ∈ job.taskGroups) :
    HasRoomFor s group ((processEval F eval s).placed group.name) := by
  set plan := processEval F eval s with hplan
  refine ⟨(plan.allocs.filter fun a => a.taskGroup == group.name).map Allocation.nodeId, ?_, ?_⟩
  · rw [List.length_map, Plan.placed, List.countP_eq_length_filter]
  · intro id hid
    obtain ⟨a, ha, rfl⟩ := List.mem_map.1 hid
    rw [List.mem_filter, beq_iff_eq] at ha
    obtain ⟨ha, hname⟩ := ha
    obtain ⟨node, hnode, helig, hfit⟩ := processEval_covered F hs a ha
    obtain ⟨g, hmem, hgname, node', hnode', hmeets⟩ := processEval_meets F hs hj a ha
    have hsame : g = group := List.inj_on_of_nodup_map hnames hmem hg (hgname.symm.trans hname)
    rw [hnode, Option.some.injEq] at hnode'
    subst hsame hnode'
    refine ⟨node, hnode, helig, ?_⟩
    have hneed : ∀ b ∈ plan.allocs, b.taskGroup = g.name →
        b.resources = groupDemand g ∧ isLive b.clientStatus = true := by
      intro b hb hbname
      obtain ⟨h, hh, hhname, hres, _, hstatus, _⟩ := processEval_planned F hs hj b hb
      rw [List.inj_on_of_nodup_map hnames hh hg (hhname.symm.trans hbname)] at hres
      exact ⟨hres, by rw [hstatus]; rfl⟩
    have hcharge := count_nsmul_le_planUsage (processEval_nonneg F hs) hneed a.nodeId
    have hkey := (hs.nodes _ _ hnode).1
    rw [hasRoom, Bool.and_eq_true, fits_iff, freeCapacity_eq, hkey]
    exact ⟨hcharge.trans (le_sub_iff_add_le'.2 hfit), hmeets⟩

end Plans
end NomadRs
