import NomadRs.Usage

/-!
# A plan as a sequence of choices

The free list of `processEval` holds nothing that the store and the allocations placed so far do not
determine: it is `remaining`. So a plan is made by going through the wanted instances of the job,
group by group, and adding an allocation on the node chosen for each (`processEval_allocs`).
-/

namespace NomadRs

/-- The eligible nodes, with what the store and the allocations placed so far leave free. -/
def remaining (s : StateStore) (as : List Allocation) : FreeList :=
  (s.listNodes.filter nodeEligible).map fun n => (n, freeCapacity n s - planUsage n.id as)

/-- The free list holds what the store and the plan leave free, for every eligible node. -/
structure Accounted (s : StateStore) (st : FreeList × Plan) : Prop extends PlanInv s st where
  nodes : st.1.map Prod.fst = s.listNodes.filter nodeEligible

def Job.wanted (job : Job) : List TaskGroup :=
  job.taskGroups.flatMap fun g => List.replicate (max g.count 0).toNat g

section Choices
variable [Crates] {eval : Evaluation} {job : Job} {group : TaskGroup} {s : StateStore}
  {st st' : FreeList × Plan}

omit [Crates] in
theorem Accounted.free_eq (h : Accounted s st) : st.1 = remaining s st.2.allocs := by
  rw [remaining, ← h.nodes, List.map_map]
  nth_rewrite 1 [← List.map_id st.1]
  apply List.map_congr_left
  intro e he
  refine Prod.ext rfl ?_
  rw [id, h.avail e he]
  exact congrArg (· - _) (freeCapacity_eq e.1 s).symm

omit [Crates] in
theorem Accounted.initial (hs : s.WellFormed) : Accounted s (initialFree s, {}) where
  toPlanInv := .initial hs
  nodes := initialFree_nodes s

theorem Accounted.place (h : Accounted s st) (hp : Place eval job group st st') :
    Accounted s st' where
  toPlanInv := h.toPlanInv.place hp
  nodes := hp.nodes_eq.trans h.nodes

theorem Accounted.steps (h : Accounted s st) {k : ℕ}
    (hsteps : Steps (Place eval job group) k st st') : Accounted s st' :=
  hsteps.invariant (Accounted s) (fun _ _ h hp => h.place hp) h

variable (F : Type) [F64 F]

def placeNext (s : StateStore) (eval : Evaluation) (job : Job) (as : List Allocation)
    (group : TaskGroup) : List Allocation :=
  match choice F s group (remaining s as) with
  | none => as
  | some nodeId => as ++ [makeAlloc eval ⟨as⟩ job group (groupDemand group) nodeId]

variable {F}

theorem placeNext_of_none {as : List Allocation} (h : choice F s group (remaining s as) = none) :
    placeNext F s eval job as group = as := by simp only [placeNext, h]

theorem placeNext_of_some {as : List Allocation} {nodeId : NodeId}
    (h : choice F s group (remaining s as) = some nodeId) :
    placeNext F s eval job as group =
      as ++ [makeAlloc eval ⟨as⟩ job group (groupDemand group) nodeId] := by
  simp only [placeNext, h]

theorem mem_foldl_placeNext {groups : List TaskGroup} {as : List Allocation} {a : Allocation} :
    a ∈ groups.foldl (placeNext F s eval job) as ↔ a ∈ as ∨
      ∃ before group after, groups = before ++ group :: after ∧ ∃ nodeId,
        choice F s group (remaining s (before.foldl (placeNext F s eval job) as)) = some nodeId ∧
        a = makeAlloc eval ⟨before.foldl (placeNext F s eval job) as⟩ job group
          (groupDemand group) nodeId := by
  induction groups generalizing as with
  | nil => simp
  | cons g groups ih =>
      have hnext : a ∈ placeNext F s eval job as g ↔ a ∈ as ∨ ∃ nodeId,
          choice F s g (remaining s as) = some nodeId ∧
          a = makeAlloc eval ⟨as⟩ job g (groupDemand g) nodeId := by
        cases hc : choice F s g (remaining s as) with
        | none => simp [placeNext_of_none hc]
        | some nodeId => simp [placeNext_of_some hc]
      rw [List.foldl_cons, ih, hnext, or_assoc]
      refine or_congr_right ⟨?_, ?_⟩
      · rintro (hfirst | ⟨before, group, after, rfl, hplaced⟩)
        · exact ⟨[], g, groups, rfl, hfirst⟩
        · exact ⟨g :: before, group, after, rfl, hplaced⟩
      · rintro ⟨before, group, after, hsplit, hplaced⟩
        rcases List.cons_eq_append_iff.1 hsplit with ⟨rfl, heq⟩ | ⟨before, rfl, rfl⟩
        · obtain ⟨rfl, rfl⟩ := List.cons_eq_cons.1 heq
          exact .inl hplaced
        · exact .inr ⟨before, group, after, rfl, hplaced⟩

/-- Once no node is chosen for an instance, none is for the others of its group. -/
theorem foldl_placeNext_of_none {as : List Allocation}
    (h : choice F s group (remaining s as) = none) (n : ℕ) :
    (List.replicate n group).foldl (placeNext F s eval job) as = as := by
  induction n with
  | zero => rfl
  | succ n ih => rw [List.replicate_succ, List.foldl_cons, placeNext_of_none h, ih]

theorem Turn.allocs_eq {n : ℕ} (h : Turn F eval s job group n st st') (hst : Accounted s st) :
    st'.2.allocs = (List.replicate n group).foldl (placeNext F s eval job) st.2.allocs := by
  induction h with
  | done => rfl
  | full n hnone =>
      rw [hst.free_eq] at hnone
      exact (foldl_placeNext_of_none hnone n).symm
  | place hsome hp hplan _ ih =>
      rw [hst.free_eq] at hsome
      rw [ih (hst.place hp), List.replicate_succ, List.foldl_cons, placeNext_of_some hsome, hplan]
      rfl

variable (F)

theorem foldl_placeGroup (eval : Evaluation) (job : Job) (groups : List TaskGroup)
    (hst : Accounted s st) : Accounted s (groups.foldl (placeGroup F eval s job) st) ∧
      (groups.foldl (placeGroup F eval s job) st).2.allocs =
        (groups.flatMap fun g => List.replicate (max g.count 0).toNat g).foldl
          (placeNext F s eval job) st.2.allocs := by
  induction groups generalizing st with
  | nil => exact ⟨hst, rfl⟩
  | cons group groups ih =>
      have hturn := placeGroup_turn F eval job group s st hst.distinct
      obtain ⟨k, _, hsteps, _⟩ := hturn.fills
      obtain ⟨hend, hallocs⟩ := ih (hst.steps hsteps)
      refine ⟨hend, ?_⟩
      rw [List.foldl_cons, hallocs, hturn.allocs_eq hst, List.flatMap_cons, List.foldl_append]

/-- A plan is made by placing the wanted instances one after the other. -/
theorem processEval_allocs (hs : s.WellFormed) (hj : s.getJob eval.jobId = some job) :
    (processEval F eval s).allocs = job.wanted.foldl (placeNext F s eval job) [] := by
  have hfold := (foldl_placeGroup F eval job job.taskGroups (Accounted.initial hs)).2
  simpa only [processEval, hj, Job.wanted] using hfold

/-! ## After a commit -/

omit F [F64 F] [Crates] in
/-- Committed under new ids, the allocations of a plan leave free what they left free before. -/
theorem remaining_commitAll {as : List Allocation} (hids : (as.map Allocation.id).Nodup)
    (hnew : ∀ a ∈ as, s.getAlloc a.id = none) :
    remaining (s.commitAll as) [] = remaining s as := by
  rw [remaining, remaining, StateStore.listNodes, StateStore.commitAll_nodes]
  apply List.map_congr_left
  intro node _
  rw [freeCapacity_eq, freeCapacity_eq, usage_commitAll_of_fresh hids hnew]
  simp only [planUsage, List.map_nil, List.sum_nil, sub_zero, sub_sub]

theorem choice_with_jobs (jobs : HashMap String Job) (free : FreeList) :
    choice F { s with jobs } group free = choice F s group free := rfl

theorem choice_of_no_spreads (h : group.spreads = []) (s' : StateStore) (free : FreeList) :
    choice F s' group free = choice F s group free := by
  have hrank : rank F s' group (groupDemand group) free =
      rank F s group (groupDemand group) free := by simp only [rank, bonusFor, h, List.foldl_nil]
  rw [choice, choice, hrank]

end Choices
end NomadRs
