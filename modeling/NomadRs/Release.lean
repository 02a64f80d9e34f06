import NomadRs.Overflow

/-!
# The scheduler of a release build

The scheduler with the `i32` operations of a build that does not check them: what leaves the range
wraps around. While the sums behind a plan are values of type `i32` (`SumsFit`) nothing does, and
the plan is the one of exact arithmetic (`processEval_eq`).
-/

open Checked

namespace NomadRs

/-- The value of type `i32` with the lowest 32 bits of `n`. -/
def wrap (n : Int) : Int := n.bmod (2 ^ 32)

theorem wrap_of_fits {n : Int} (h : I32 n) : wrap n = n := by
  obtain ⟨hmin, hmax⟩ := h
  unfold i32Min at hmin
  unfold i32Max at hmax
  exact Int.bmod_eq_of_le (by omega) (by omega)

namespace Resources

def wrap (r : Resources) : Resources :=
  ⟨NomadRs.wrap r.cpuMhz, NomadRs.wrap r.memoryMb, NomadRs.wrap r.networkMbps⟩

def wrappingAdd (a b : Resources) : Resources where
  cpuMhz := NomadRs.wrap (a.cpuMhz + b.cpuMhz)
  memoryMb := NomadRs.wrap (a.memoryMb + b.memoryMb)
  networkMbps := NomadRs.wrap (a.networkMbps + b.networkMbps)

def wrappingSub (a b : Resources) : Resources where
  cpuMhz := NomadRs.wrap (a.cpuMhz - b.cpuMhz)
  memoryMb := NomadRs.wrap (a.memoryMb - b.memoryMb)
  networkMbps := NomadRs.wrap (a.networkMbps - b.networkMbps)

theorem wrappingSub_eq (a b : Resources) : a.wrappingSub b = (a - b).wrap := rfl

theorem wrap_of_fits {r : Resources} (h : r.I32) : r.wrap = r := by
  obtain ⟨hcpu, hmem, hnet⟩ := i32_iff.1 h
  exact Resources.ext (NomadRs.wrap_of_fits hcpu) (NomadRs.wrap_of_fits hmem)
    (NomadRs.wrap_of_fits hnet)

theorem wrap_wrap_add (a b : Resources) : (a.wrap + b).wrap = (a + b).wrap :=
  Resources.ext Int.bmod_add_bmod Int.bmod_add_bmod Int.bmod_add_bmod

theorem wrappingSub_of_checkedSub {a b r : Resources} (h : a.checkedSub b = some r) :
    a.wrappingSub b = r := by
  rw [checkedSub_eq, check, Option.ite_none_right_eq_some] at h
  obtain ⟨hfits, heq⟩ := h
  rw [wrappingSub_eq, wrap_of_fits hfits, Option.some_inj.1 heq]

end Resources

namespace Release

def groupDemand (group : TaskGroup) : Resources :=
  group.tasks.foldl (fun acc t => acc.wrappingAdd t.resources)
    { cpuMhz := 0, memoryMb := 0, networkMbps := 0 }

def freeCapacity (node : Node) (state : StateStore) : Resources :=
  ((state.allocsByNode node.id).filter fun a => isLive a.clientStatus).foldl
    (fun free a => free.wrappingSub a.resources) node.resources

def desiredCount (eval : Evaluation) (state : StateStore) : Int :=
  match state.getJob eval.jobId with
  | none => 0
  | some job => (job.taskGroups.map fun g => max g.count 0).foldl (fun sum n => wrap (sum + n)) 0

/-- `avail.cpu_mhz -= need.cpu_mhz` and its two siblings on the first entry that is found. -/
def decrementFirst (p : Node × Resources → Bool) (need : Resources) : FreeList → FreeList
  | [] => []
  | (node, avail) :: rest =>
    if p (node, avail) then (node, avail.wrappingSub need) :: rest
    else (node, avail) :: decrementFirst p need rest

section Placement
variable (F : Type) [F64 F] [Crates]

def utilisation (total after : Int) : F :=
  if total > 0 then F64.ofInt (wrap (total - after)) / F64.ofInt total else F64.ofInt 0

def scoreNode (node : Node) (free need : Resources) (group : TaskGroup) (spreadBonus : F) : F :=
  let affinity := group.affinities.foldl (fun (score : F) affinity =>
    if affinity.satisfiedBy node.attributes then score + F64.ofInt affinity.weight else score)
    (F64.ofInt 0)
  let after := free.wrappingSub need
  let binPacked :=
    if after.cpuMhz > 0 || after.memoryMb > 0 || after.networkMbps > 0 then
      let utilCpu : F := utilisation F node.resources.cpuMhz after.cpuMhz
      let utilMem : F := utilisation F node.resources.memoryMb after.memoryMb
      let utilNet : F := utilisation F node.resources.networkMbps after.networkMbps
      let avgUtil := (utilCpu + utilMem + utilNet) / F64.ofInt 3
      affinity + avgUtil * F64.ofInt 50
    else affinity
  binPacked + spreadBonus

def rank (state : StateStore) (group : TaskGroup) (need : Resources) (free : FreeList) :
    List (Candidate F) :=
  let scored := (free.zipIdx.filter fun e => hasRoom group need e.1).map fun ((node, avail), idx) =>
    { node, free := avail, order := idx
      score := scoreNode F node avail need group (bonusFor F group node state) : Candidate F }
  scored.insertionSort fun a b =>
    ((F64.totalCmp b.score a.score).then (compare a.order b.order)) ≠ .gt

def placeFirstFit (eval : Evaluation) (job : Job) (group : TaskGroup) (need : Resources) :
    Nat → FreeList × Plan → FreeList × Plan
  | 0, st => st
  | n + 1, (free, plan) =>
    match free.find? (hasRoom group need) with
    | none => (free, plan)
    | some (node, _) =>
      placeFirstFit eval job group need n
        (decrementFirst (hasRoom group need) need free,
          plan.push (makeAlloc eval plan job group need node.id))

def placeScored (eval : Evaluation) (state : StateStore) (job : Job) (group : TaskGroup)
    (need : Resources) : Nat → FreeList × Plan → FreeList × Plan
  | 0, st => st
  | n + 1, (free, plan) =>
    match (rank F state group need free).head? with
    | none => (free, plan)
    | some best =>
      match free.find? fun e => e.1.id == best.node.id with
      | none => placeScored eval state job group need n (free, plan)
      | some _ =>
        placeScored eval state job group need n
          (decrementFirst (fun e => e.1.id == best.node.id) need free,
            plan.push (makeAlloc eval plan job group need best.node.id))

def placeGroup (eval : Evaluation) (state : StateStore) (job : Job) (st : FreeList × Plan)
    (group : TaskGroup) : FreeList × Plan :=
  let need := groupDemand group
  if group.affinities.isEmpty && group.spreads.isEmpty then
    placeFirstFit eval job group need (max group.count 0).toNat st
  else placeScored F eval state job group need (max group.count 0).toNat st

def initialFree (state : StateStore) : FreeList :=
  (state.listNodes.filter nodeEligible).map fun n => (n, freeCapacity n state)

def placeGroups (eval : Evaluation) (state : StateStore) (job : Job) (groups : List TaskGroup) :
    FreeList × Plan := groups.foldl (placeGroup F eval state job) (initialFree state, {})

def processEval (eval : Evaluation) (state : StateStore) : Plan :=
  match state.getJob eval.jobId with
  | none => {}
  | some job => (placeGroups F eval state job job.taskGroups).2

def processAndApply (eval : Evaluation) (fsm : Fsm) : Result Plan × Fsm :=
  let plan := processEval F eval fsm.state
  match applyPlan fsm plan.allocs with
  | (.error e, fsm') => (.error e, fsm')
  | (.ok _, fsm') => (.ok plan, fsm')

end Placement

/-! ## Sums that fit -/

/-- What the plans for a job add up are values of type `i32`: the demand of each group over its
tasks, and what the live allocations leave of each eligible node. -/
structure SumsFit (job : Job) (s : StateStore) : Prop where
  demand : ∀ group ∈ job.taskGroups, (group.tasks.map Task.resources).sum ≤ Resources.i32Max
  free : ∀ node ∈ s.listNodes, nodeEligible node = true →
    node.resources.I32 ∧ (node.resources - usage s node.id).I32

instance (job : Job) (s : StateStore) : Decidable (SumsFit job s) :=
  decidable_of_iff (_ ∧ _) ⟨fun h => ⟨h.1, h.2⟩, fun h => ⟨h.demand, h.free⟩⟩

theorem groupDemand_eq {group : TaskGroup} (hvalid : group.validate = .ok ())
    (h : (group.tasks.map Task.resources).sum ≤ Resources.i32Max) :
    groupDemand group = NomadRs.groupDemand group := by
  have hsum : groupDemand group =
      ((0 : Resources) + (group.tasks.map Task.resources).sum).wrap := by
    rw [← foldl_wrap Resources.wrap_wrap_add, List.foldl_map]
    rfl
  have hpos := groupDemand_nonneg hvalid
  rw [NomadRs.groupDemand_eq] at hpos ⊢
  rw [hsum, zero_add]
  exact Resources.wrap_of_fits ⟨le_trans (by decide) hpos, h⟩

theorem freeCapacity_eq {node : Node} {s : StateStore} (hnode : node.resources.I32)
    (h : (node.resources - usage s node.id).I32) :
    freeCapacity node s = NomadRs.freeCapacity node s := by
  have hsum : freeCapacity node s =
      (node.resources + ((liveOn s node.id).map fun a => -a.resources).sum).wrap := by
    rw [← foldl_wrap Resources.wrap_wrap_add, List.foldl_map, Resources.wrap_of_fits hnode]
    simp only [← sub_eq_add_neg]
    rfl
  have hneg : ((liveOn s node.id).map fun a => -a.resources).sum = -usage s node.id := by
    rw [usage, List.sum_neg, List.map_map]
    rfl
  rw [hsum, hneg, ← sub_eq_add_neg, NomadRs.freeCapacity_eq, Resources.wrap_of_fits h]

theorem initialFree_eq {job : Job} {s : StateStore} (h : SumsFit job s) :
    initialFree s = NomadRs.initialFree s := by
  refine List.map_congr_left fun node hnode => ?_
  obtain ⟨hmem, helig⟩ := List.mem_filter.1 hnode
  rw [freeCapacity_eq (h.free node hmem helig).1 (h.free node hmem helig).2]

/-! ## Where nothing overflows -/

section Runs
variable {F : Type} [F64 F] [Crates] {s : StateStore} {eval : Evaluation} {job : Job}
  {group : TaskGroup} {need : Resources}

omit F [F64 F] [Crates] in
theorem decrementFirst_of_checked {p : Node × Resources → Bool} {free left : FreeList}
    (h : free.decrementFirstChecked p need = some left) : decrementFirst p need free = left := by
  induction free generalizing left with
  | nil => exact Option.some_inj.1 h
  | cons e free ih =>
      rw [FreeList.decrementFirstChecked] at h
      rw [decrementFirst]
      split at h
      next hpay =>
        obtain ⟨avail, hsub, rfl⟩ := Option.map_eq_some_iff.1 h
        rw [if_pos hpay, Resources.wrappingSub_of_checkedSub hsub]
      next hpay =>
        obtain ⟨rest, hrest, rfl⟩ := Option.map_eq_some_iff.1 h
        rw [if_neg hpay, ih hrest]

omit [Crates] in
theorem utilisation_of_checked {total left : Int} {u : F}
    (h : utilisationChecked F total left = some u) : utilisation F total left = u := by
  rw [utilisationChecked] at h
  rw [utilisation]
  split at h
  next hpos =>
    obtain ⟨used, hused, rfl⟩ := Option.map_eq_some_iff.1 h
    rw [check, Option.ite_none_right_eq_some] at hused
    rw [if_pos hpos, wrap_of_fits hused.1, Option.some_inj.1 hused.2]
  next hpos => rw [if_neg hpos, Option.some_inj.1 h]

theorem scoreNode_of_checked {node : Node} {free : Resources} {bonus score : F}
    (h : scoreNodeChecked F node free need group bonus = some score) :
    scoreNode F node free need group bonus = score := by
  simp only [scoreNodeChecked, Option.bind_eq_bind, Option.bind_eq_some_iff] at h
  obtain ⟨left, hleft, h⟩ := h
  simp only [scoreNode, Resources.wrappingSub_of_checkedSub hleft]
  split at h
  next hsome =>
    simp only [Option.bind_eq_some_iff, Option.pure_def, Option.some_inj] at h
    obtain ⟨cpu, hcpu, mem, hmem, net, hnet, rfl⟩ := h
    rw [if_pos hsome, utilisation_of_checked hcpu, utilisation_of_checked hmem,
      utilisation_of_checked hnet]
  next hnone => rw [if_neg hnone, Option.some_inj.1 h]

omit [Crates] in
theorem utilisation_eq {total left : Int} (h : I32 (total - left)) :
    utilisation F total left = NomadRs.utilisation F total left := by
  rw [utilisation, NomadRs.utilisation, wrap_of_fits h]

theorem scoreNode_eq {node : Node} {free : Resources} {bonus : F} (hleft : (free - need).I32)
    (hused : (node.resources - (free - need)).I32) :
    scoreNode F node free need group bonus = NomadRs.scoreNode F node free need group bonus := by
  obtain ⟨hcpu, hmem, hnet⟩ := Resources.i32_iff.1 hused
  have hafter : free.wrappingSub need = free.decrement need := Resources.wrap_of_fits hleft
  have hc : utilisation F node.resources.cpuMhz (free.decrement need).cpuMhz = _ :=
    utilisation_eq hcpu
  have hm : utilisation F node.resources.memoryMb (free.decrement need).memoryMb = _ :=
    utilisation_eq hmem
  have hn : utilisation F node.resources.networkMbps (free.decrement need).networkMbps = _ :=
    utilisation_eq hnet
  rw [scoreNode, NomadRs.scoreNode, hafter]
  simp only [hc, hm, hn]

theorem rank_of_checked {free : FreeList} {ranked : List (Candidate F)}
    (h : rankChecked F s group need free = some ranked) : rank F s group need free = ranked := by
  simp only [rankChecked, Option.bind_eq_bind, Option.bind_eq_some_iff, Option.pure_def,
    Option.some_inj] at h
  obtain ⟨scored, hscored, rfl⟩ := h
  rw [rank]
  refine congrArg _ (map_of_mapM (fun e candidate he => ?_) hscored)
  obtain ⟨score, hscore, rfl⟩ := Option.map_eq_some_iff.1 he
  obtain rfl := scoreNode_of_checked hscore
  rfl

theorem placeFirstFit_of_checked {n : ℕ} {st st' : FreeList × Plan}
    (h : placeFirstFitChecked eval job group need n st = some st') :
    placeFirstFit eval job group need n st = st' := by
  induction n generalizing st with
  | zero => exact Option.some_inj.1 h
  | succ n ih =>
      obtain ⟨free, plan⟩ := st
      rw [placeFirstFitChecked] at h
      rw [placeFirstFit]
      cases hfind : free.find? (hasRoom group need) with
      | none =>
          simp only [hfind] at h ⊢
          exact Option.some_inj.1 h
      | some entry =>
          simp only [hfind] at h ⊢
          obtain ⟨left, hleft, h⟩ := Option.bind_eq_some_iff.1 h
          rw [decrementFirst_of_checked hleft]
          exact ih h

theorem placeScored_of_checked {n : ℕ} {st st' : FreeList × Plan}
    (h : placeScoredChecked F eval s job group need n st = some st') :
    placeScored F eval s job group need n st = st' := by
  induction n generalizing st with
  | zero => exact Option.some_inj.1 h
  | succ n ih =>
      obtain ⟨free, plan⟩ := st
      rw [placeScoredChecked] at h
      obtain ⟨ranked, hranked, h⟩ := Option.bind_eq_some_iff.1 h
      rw [placeScored, rank_of_checked hranked]
      cases hbest : ranked.head? with
      | none =>
          simp only [hbest] at h ⊢
          exact Option.some_inj.1 h
      | some best =>
          simp only [hbest] at h ⊢
          cases hfind : free.find? fun e => e.1.id == best.node.id with
          | none =>
              simp only [hfind] at h ⊢
              exact ih h
          | some entry =>
              simp only [hfind] at h ⊢
              obtain ⟨left, hleft, h⟩ := Option.bind_eq_some_iff.1 h
              rw [decrementFirst_of_checked hleft]
              exact ih h

theorem placeGroup_of_checked {st st' : FreeList × Plan}
    (hneed : groupDemandChecked group = some (groupDemand group))
    (h : placeGroupChecked F eval s job st group = some st') :
    placeGroup F eval s job st group = st' := by
  rw [placeGroupChecked, hneed] at h
  rw [placeGroup]
  simp only [Option.bind_eq_bind, Option.bind_some] at h
  split at h
  next hfast =>
    simp only [if_pos hfast]
    exact placeFirstFit_of_checked h
  next hranked =>
    simp only [if_neg hranked]
    exact placeScored_of_checked h

variable (F)

theorem placeGroups_eq (hs : s.WellFormed) (hj : s.getJob eval.jobId = some job)
    (h : SumsFit job s) {groups : List TaskGroup} (hgroups : groups ⊆ job.taskGroups) :
    placeGroups F eval s job groups =
      groups.foldl (NomadRs.placeGroup F eval s job) (NomadRs.initialFree s, {}) := by
  rw [placeGroups, initialFree_eq h]
  refine foldl_congr_of_inv
    (fun st => EntriesFit st.1 ∧ ((st.1.map Prod.fst).map Node.id).Nodup)
    (fun group hg st hst => ?_) ⟨entriesFit_initialFree h.free, hs.nodup_initialFree⟩
  have hvalid := hs.group_ok hj (hgroups hg)
  have hdemand := h.demand group (hgroups hg)
  obtain ⟨hfit, hchecked⟩ : EntriesFit (NomadRs.placeGroup F eval s job st group).1 ∧
      ∀ st', placeGroupChecked F eval s job st group = some st' ↔
        NomadRs.groupDemand group ≤ Resources.i32Max ∧
          st' = NomadRs.placeGroup F eval s job st group :=
    placeGroupChecked_eq_some_iff hvalid hst.1 hst.2
  obtain ⟨k, _, hsteps, _⟩ := (placeGroup_turn F eval job group s st hst.2).fills
  refine ⟨⟨hfit, (placeSteps_nodes_eq hsteps).symm ▸ hst.2⟩, placeGroup_of_checked ?_ ?_⟩
  · rw [groupDemandChecked_eq_some_iff hvalid, NomadRs.groupDemand_eq,
      groupDemand_eq hvalid hdemand, NomadRs.groupDemand_eq]
    exact ⟨hdemand, rfl⟩
  · exact (hchecked _).2 ⟨NomadRs.groupDemand_eq group ▸ hdemand, rfl⟩

/-- While the sums fit, a plan is the one of exact arithmetic. -/
theorem processEval_eq (hs : s.WellFormed)
    (h : ∀ job, s.getJob eval.jobId = some job → SumsFit job s) :
    processEval F eval s = NomadRs.processEval F eval s := by
  cases hj : s.getJob eval.jobId with
  | none => simp only [processEval, NomadRs.processEval, hj]
  | some job =>
      simp only [processEval, NomadRs.processEval, hj]
      rw [placeGroups_eq F hs hj (h job hj) (List.Subset.refl _)]

theorem processEval_eq_of_job (hs : s.WellFormed) (hj : s.getJob eval.jobId = some job)
    (h : SumsFit job s) : processEval F eval s = NomadRs.processEval F eval s := by
  refine processEval_eq F hs fun stored hstored => ?_
  obtain rfl := Option.some_inj.1 (hj.symm.trans hstored)
  exact h

/-- The sums still fit once a plan is committed under new ids. -/
theorem SumsFit.commitAll (h : SumsFit job s) (hs : s.WellFormed)
    (hids : ((NomadRs.processEval F eval s).allocs.map Allocation.id).Nodup)
    (hnew : ∀ a ∈ (NomadRs.processEval F eval s).allocs, s.getAlloc a.id = none) :
    SumsFit job (s.commitAll (NomadRs.processEval F eval s).allocs) where
  demand := h.demand
  free node hnode helig := by
    rw [StateStore.listNodes, StateStore.commitAll_nodes] at hnode
    obtain ⟨htotal, hmin, hmax⟩ := h.free node hnode helig
    rw [usage_commitAll_of_fresh hids hnew, ← sub_sub]
    refine ⟨htotal, ?_, (sub_le_self _ (planUsage_nonneg (processEval_nonneg F hs) _)).trans hmax⟩
    by_cases hon : ∃ a ∈ (NomadRs.processEval F eval s).allocs, a.nodeId = node.id
    · -- the node of a placement covers what the plan puts there
      obtain ⟨a, ha, hid⟩ := hon
      obtain ⟨node', hget, _, hle⟩ := processEval_covered F hs a ha
      rw [hid, hs.getNode_of_mem hnode, Option.some_inj] at hget
      obtain rfl := hget
      rw [hid, ← le_sub_iff_add_le'] at hle
      exact le_trans (by decide) (sub_nonneg.2 hle)
    · rw [planUsage_eq_zero fun a ha hid => hon ⟨a, ha, hid⟩, sub_zero]
      exact hmin

theorem processAndApply_eq {fsm : Fsm} (hs : fsm.state.WellFormed)
    (h : ∀ job, fsm.state.getJob eval.jobId = some job → SumsFit job fsm.state) :
    processAndApply F eval fsm = NomadRs.processAndApply F eval fsm := by
  rw [processAndApply, processEval_eq F hs h]
  rfl

/-- Whatever the plan is, what is committed of it is well formed. -/
theorem processAndApply_wellFormed {fsm : Fsm} (hs : fsm.state.WellFormed) (eval : Evaluation) :
    (processAndApply F eval fsm).2.state.WellFormed := by
  obtain ⟨done, _, _, hstate, hval, _⟩ := applyPlan_spec fsm (processEval F eval fsm.state).allocs
  have hcommit : (processAndApply F eval fsm).2.state = fsm.state.commitAll done := by
    rw [← hstate, processAndApply]
    split <;> simp_all
  rw [hcommit]
  exact hs.commitAll hval

end Runs
end Release
end NomadRs
