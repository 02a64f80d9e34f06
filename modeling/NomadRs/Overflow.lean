import NomadRs.Checked
import NomadRs.Usage

/-!
# Overflow in the scheduler

The scheduler once more, with its `i32` operations checked: a computation has no result if one of
them leaves the range, as in a build that panics on overflow. Where there is a result it is the one
of exact arithmetic (`processEvalChecked_eq`).

Placements only subtract a demand from a capacity that covers it, and nothing overflows there. What
can overflow are the sums: the demand of a group over its tasks, the instances of a job over its
groups, and the capacity of a node less its allocations (`noOverflow_iff`).
-/

open Checked

namespace NomadRs

namespace Resources

def checkedAdd (a b : Resources) : Option Resources := do
  let cpuMhz ← check NomadRs.I32 (a.cpuMhz + b.cpuMhz)
  let memoryMb ← check NomadRs.I32 (a.memoryMb + b.memoryMb)
  let networkMbps ← check NomadRs.I32 (a.networkMbps + b.networkMbps)
  return { cpuMhz, memoryMb, networkMbps }

def checkedSub (a b : Resources) : Option Resources := do
  let cpuMhz ← check NomadRs.I32 (a.cpuMhz - b.cpuMhz)
  let memoryMb ← check NomadRs.I32 (a.memoryMb - b.memoryMb)
  let networkMbps ← check NomadRs.I32 (a.networkMbps - b.networkMbps)
  return { cpuMhz, memoryMb, networkMbps }

theorem check_fields (r : Resources) : (do
    let cpuMhz ← check NomadRs.I32 r.cpuMhz
    let memoryMb ← check NomadRs.I32 r.memoryMb
    let networkMbps ← check NomadRs.I32 r.networkMbps
    return ({ cpuMhz, memoryMb, networkMbps } : Resources)) = check I32 r := by
  simp only [check, i32_iff]
  by_cases hcpu : NomadRs.I32 r.cpuMhz <;> by_cases hmem : NomadRs.I32 r.memoryMb <;>
    by_cases hnet : NomadRs.I32 r.networkMbps <;> simp [hcpu, hmem, hnet]

theorem checkedAdd_eq (a b : Resources) : a.checkedAdd b = check I32 (a + b) := check_fields (a + b)

theorem checkedSub_eq (a b : Resources) : a.checkedSub b = check I32 (a - b) := check_fields (a - b)

end Resources

/-! ## The checked scheduler -/

def groupDemandChecked (group : TaskGroup) : Option Resources :=
  group.tasks.foldlM (fun acc t => acc.checkedAdd t.resources)
    { cpuMhz := 0, memoryMb := 0, networkMbps := 0 }

def freeCapacityChecked (node : Node) (state : StateStore) : Option Resources :=
  ((state.allocsByNode node.id).filter fun a => isLive a.clientStatus).foldlM
    (fun free a => free.checkedSub a.resources) node.resources

def desiredCountChecked (eval : Evaluation) (state : StateStore) : Option Int :=
  match state.getJob eval.jobId with
  | none => some 0
  | some job =>
    (job.taskGroups.map fun g => max g.count 0).foldlM (fun sum n => check I32 (sum + n)) 0

/-- `avail.cpu_mhz -= need.cpu_mhz` and its two siblings on the first entry that is found. -/
def FreeList.decrementFirstChecked (p : Node × Resources → Bool) (need : Resources) :
    FreeList → Option FreeList
  | [] => some []
  | (node, avail) :: rest =>
    if p (node, avail) then (avail.checkedSub need).map fun left => (node, left) :: rest
    else (decrementFirstChecked p need rest).map fun rest => (node, avail) :: rest

section Runs
variable (F : Type) [F64 F] [Crates]

def utilisationChecked (total after : Int) : Option F :=
  if total > 0 then
    (check I32 (total - after)).map fun used => F64.ofInt used / F64.ofInt total
  else some (F64.ofInt 0)

def scoreNodeChecked (node : Node) (free need : Resources) (group : TaskGroup) (spreadBonus : F) :
    Option F := do
  let affinity := group.affinities.foldl (fun (score : F) affinity =>
    if affinity.satisfiedBy node.attributes then score + F64.ofInt affinity.weight else score)
    (F64.ofInt 0)
  let after ← free.checkedSub need
  if after.cpuMhz > 0 || after.memoryMb > 0 || after.networkMbps > 0 then
    let utilCpu ← utilisationChecked F node.resources.cpuMhz after.cpuMhz
    let utilMem ← utilisationChecked F node.resources.memoryMb after.memoryMb
    let utilNet ← utilisationChecked F node.resources.networkMbps after.networkMbps
    let avgUtil := (utilCpu + utilMem + utilNet) / F64.ofInt 3
    return affinity + avgUtil * F64.ofInt 50 + spreadBonus
  else return affinity + spreadBonus

def rankChecked (state : StateStore) (group : TaskGroup) (need : Resources) (free : FreeList) :
    Option (List (Candidate F)) := do
  let scored ← (free.zipIdx.filter fun e => hasRoom group need e.1).mapM fun ((node, avail), idx) =>
    (scoreNodeChecked F node avail need group (bonusFor F group node state)).map fun score =>
      ({ node, free := avail, order := idx, score } : Candidate F)
  return scored.insertionSort fun a b =>
    ((F64.totalCmp b.score a.score).then (compare a.order b.order)) ≠ .gt

def placeFirstFitChecked (eval : Evaluation) (job : Job) (group : TaskGroup) (need : Resources) :
    Nat → FreeList × Plan → Option (FreeList × Plan)
  | 0, st => some st
  | n + 1, (free, plan) =>
    match free.find? (hasRoom group need) with
    | none => some (free, plan)
    | some (node, _) => do
      let free ← free.decrementFirstChecked (hasRoom group need) need
      placeFirstFitChecked eval job group need n
        (free, plan.push (makeAlloc eval plan job group need node.id))

def placeScoredChecked (eval : Evaluation) (state : StateStore) (job : Job) (group : TaskGroup)
    (need : Resources) : Nat → FreeList × Plan → Option (FreeList × Plan)
  | 0, st => some st
  | n + 1, (free, plan) => do
    let ranked ← rankChecked F state group need free
    match ranked.head? with
    | none => return (free, plan)
    | some best =>
      match free.find? fun e => e.1.id == best.node.id with
      | none => placeScoredChecked eval state job group need n (free, plan)
      | some _ =>
        let free ← free.decrementFirstChecked (fun e => e.1.id == best.node.id) need
        placeScoredChecked eval state job group need n
          (free, plan.push (makeAlloc eval plan job group need best.node.id))

def placeGroupChecked (eval : Evaluation) (state : StateStore) (job : Job) (st : FreeList × Plan)
    (group : TaskGroup) : Option (FreeList × Plan) := do
  let need ← groupDemandChecked group
  if group.affinities.isEmpty && group.spreads.isEmpty then
    placeFirstFitChecked eval job group need (max group.count 0).toNat st
  else placeScoredChecked F eval state job group need (max group.count 0).toNat st

def initialFreeChecked (state : StateStore) : Option FreeList :=
  (state.listNodes.filter nodeEligible).mapM fun n =>
    (freeCapacityChecked n state).map fun avail => (n, avail)

def processEvalChecked (eval : Evaluation) (state : StateStore) : Option Plan :=
  match state.getJob eval.jobId with
  | none => some {}
  | some job => do
    let free ← initialFreeChecked state
    let st ← job.taskGroups.foldlM (placeGroupChecked F eval state job) (free, {})
    return st.2

end Runs

/-! ## Sums -/

theorem groupDemandChecked_eq_some_iff {group : TaskGroup} (h : group.validate = .ok ())
    {r : Resources} : groupDemandChecked group = some r ↔
      groupDemand group ≤ Resources.i32Max ∧ r = groupDemand group := by
  have hsum : groupDemandChecked group =
      sumFrom Resources.I32 0 (group.tasks.map Task.resources) := by
    rw [sumFrom, List.foldlM_map]
    simp only [groupDemandChecked, Resources.checkedAdd_eq]
    rfl
  have hpos : ∀ r ∈ group.tasks.map Task.resources, 0 ≤ r := by
    intro r hr
    obtain ⟨task, ht, rfl⟩ := List.mem_map.1 hr
    exact (TaskGroup.validate_ok h).2.2 task ht
  rw [hsum, sumFrom_eq_some_iff Resources.I32 (by decide)]
  simp only [Resources.I32]
  rw [partialSums_fit_iff (by decide) hpos, zero_add, ← groupDemand_eq]

/-- What is left of a node fits, whichever of its live allocations, in their order, have been
subtracted. -/
def FreeFits (s : StateStore) (node : Node) : Prop :=
  ∀ as, as <+: liveOn s node.id → (node.resources - (as.map Allocation.resources).sum).I32

theorem freeCapacityChecked_eq_some_iff {node : Node} {s : StateStore}
    (hnode : node.resources.I32) {r : Resources} : freeCapacityChecked node s = some r ↔
      FreeFits s node ∧ r = freeCapacity node s := by
  have hsum : freeCapacityChecked node s =
      sumFrom Resources.I32 node.resources ((liveOn s node.id).map fun a => -a.resources) := by
    rw [sumFrom, List.foldlM_map]
    simp only [freeCapacityChecked, Resources.checkedSub_eq, sub_eq_add_neg]
    rfl
  have hneg (as : List Allocation) : node.resources + (as.map fun a => -a.resources).sum =
      node.resources - (as.map Allocation.resources).sum := by
    rw [sub_eq_add_neg, List.sum_neg, List.map_map]
    rfl
  rw [hsum, sumFrom_eq_some_iff Resources.I32 hnode, freeCapacity_eq, hneg, FreeFits]
  refine and_congr_left fun _ => ⟨fun h as has => ?_, fun h p hp => ?_⟩
  · rw [← hneg]
    exact h _ (has.map _)
  · obtain ⟨as, has, rfl⟩ := List.prefix_map_iff.1 hp
    rw [hneg]
    exact h as has

theorem desiredCountChecked_isSome_iff {eval : Evaluation} {s : StateStore} {job : Job}
    (hj : s.getJob eval.jobId = some job) (hvalid : job.validate = .ok ()) :
    (desiredCountChecked eval s).isSome ↔ (job.taskGroups.map TaskGroup.count).sum ≤ i32Max := by
  have hcounts : (job.taskGroups.map fun g => max g.count 0) = job.taskGroups.map TaskGroup.count :=
    List.map_congr_left fun g hg => max_eq_left
      (TaskGroup.validate_ok ((Job.validate_ok hvalid).2 g hg)).2.1
  have hpos : ∀ n ∈ job.taskGroups.map TaskGroup.count, 0 ≤ n := by
    intro n hn
    obtain ⟨g, hg, rfl⟩ := List.mem_map.1 hn
    exact (TaskGroup.validate_ok ((Job.validate_ok hvalid).2 g hg)).2.1
  have hsum : desiredCountChecked eval s = sumFrom I32 0 (job.taskGroups.map TaskGroup.count) := by
    simp only [desiredCountChecked, hj, hcounts, sumFrom]
  rw [hsum, sumFrom_isSome_iff I32 (by decide)]
  simp only [I32]
  rw [partialSums_fit_iff (by decide) hpos, zero_add]

/-! ## Placements -/

section Runs
variable {F : Type} [F64 F] [Crates] {s : StateStore} {eval : Evaluation} {job : Job}
  {group : TaskGroup}

/-- The resources of the nodes and what is left of them are values of type `i32`. -/
def EntriesFit (free : FreeList) : Prop := ∀ e ∈ free, e.1.resources.I32 ∧ e.2.I32

omit F [F64 F] [Crates] in
theorem I32.sub_of_le {avail need : Resources} (havail : avail.I32) (hneed : 0 ≤ need)
    (hfits : need ≤ avail) : (avail - need).I32 := by
  obtain ⟨_, hmax⟩ := havail
  refine ⟨?_, (sub_le_self avail hneed).trans hmax⟩
  exact le_trans (by decide) (sub_nonneg.2 hfits)

omit [Crates] in
theorem utilisationChecked_eq {total left : Int} (htotal : I32 total) (hleft : 0 ≤ left)
    (hmax : left ≤ i32Max) : utilisationChecked F total left = some (utilisation F total left) := by
  unfold utilisationChecked utilisation
  split
  next hpos =>
    have hfits : I32 (total - left) := by
      unfold I32 i32Min i32Max at *
      omega
    rw [check_of_fits hfits]
    rfl
  next => rfl

theorem scoreNodeChecked_eq {node : Node} {free need : Resources} {bonus : F}
    (hnode : node.resources.I32) (hfree : free.I32) (hneed : 0 ≤ need) (hfits : need ≤ free) :
    scoreNodeChecked F node free need group bonus =
      some (scoreNode F node free need group bonus) := by
  have hleft := I32.sub_of_le hfree hneed hfits
  obtain ⟨hcpu, hmem, hnet⟩ := Resources.i32_iff.1 hnode
  obtain ⟨hcpu', hmem', hnet'⟩ := Resources.i32_iff.1 hleft
  obtain ⟨hcpu₀, hmem₀, hnet₀⟩ := sub_nonneg.2 hfits
  have hc := utilisationChecked_eq (F := F) hcpu hcpu₀ hcpu'.2
  have hm := utilisationChecked_eq (F := F) hmem hmem₀ hmem'.2
  have hn := utilisationChecked_eq (F := F) hnet hnet₀ hnet'.2
  unfold scoreNodeChecked scoreNode
  rw [Resources.checkedSub_eq, check_of_fits hleft, Resources.decrement_eq]
  simp only [Option.bind_eq_bind, Option.bind_some, hc, hm, hn]
  split <;> rfl

theorem rankChecked_eq {free : FreeList} {need : Resources} (hfree : EntriesFit free)
    (hneed : 0 ≤ need) : rankChecked F s group need free = some (rank F s group need free) := by
  unfold rankChecked rank
  rw [mapM_eq_some (g := fun e => { node := e.1.1, free := e.1.2, order := e.2
                                    score := scoreNode F e.1.1 e.1.2 need group
                                      (bonusFor F group e.1.1 s) : Candidate F })]
  · rfl
  · rintro ⟨⟨node, avail⟩, idx⟩ he
    obtain ⟨hmem, hroom⟩ := List.mem_filter.1 he
    obtain ⟨hnode, havail⟩ := hfree _ (List.fst_mem_of_mem_zipIdx hmem)
    rw [hasRoom, Bool.and_eq_true] at hroom
    change (scoreNodeChecked F node avail need group (bonusFor F group node s)).map _ = _
    rw [scoreNodeChecked_eq hnode havail hneed (fits_iff.1 hroom.1)]
    rfl

omit F [F64 F] [Crates] in
theorem decrementFirst_nodes (p : Node × Resources → Bool) (need : Resources) (free : FreeList) :
    (free.decrementFirst p need).map Prod.fst = free.map Prod.fst := by
  induction free with
  | nil => rfl
  | cons e free ih =>
      rw [FreeList.decrementFirst]
      split <;> simp [ih]

omit F [F64 F] [Crates] in
theorem EntriesFit.decrementFirst {free : FreeList} (h : EntriesFit free) {need : Resources}
    (hneed : 0 ≤ need) {p : Node × Resources → Bool}
    (hp : ∀ e ∈ free, p e = true → need ≤ e.2) :
    free.decrementFirstChecked p need = some (free.decrementFirst p need) ∧
      EntriesFit (free.decrementFirst p need) := by
  induction free with
  | nil => exact ⟨rfl, h⟩
  | cons e free ih =>
      obtain ⟨node, avail⟩ := e
      obtain ⟨⟨hnode, havail⟩, hrest⟩ := List.forall_mem_cons.1 h
      obtain ⟨hpe, hprest⟩ := List.forall_mem_cons.1 hp
      rw [FreeList.decrementFirstChecked, FreeList.decrementFirst, Resources.checkedSub_eq]
      split
      next hpay =>
        have hleft := I32.sub_of_le havail hneed (hpe hpay)
        rw [check_of_fits hleft]
        exact ⟨rfl, List.forall_mem_cons.2 ⟨⟨hnode, hleft⟩, hrest⟩⟩
      next =>
        obtain ⟨heq, hfit⟩ := ih hrest hprest
        rw [heq]
        exact ⟨rfl, List.forall_mem_cons.2 ⟨⟨hnode, havail⟩, hfit⟩⟩

theorem placeFirstFitChecked_eq {need : Resources} (hneed : 0 ≤ need) (n : ℕ)
    (st : FreeList × Plan) (hst : EntriesFit st.1) :
    placeFirstFitChecked eval job group need n st =
        some (placeFirstFit eval job group need n st) ∧
      EntriesFit (placeFirstFit eval job group need n st).1 := by
  induction n generalizing st with
  | zero => exact ⟨rfl, hst⟩
  | succ n ih =>
      obtain ⟨free, plan⟩ := st
      rw [placeFirstFitChecked, placeFirstFit]
      cases hf : free.find? (hasRoom group need) with
      | none => exact ⟨rfl, hst⟩
      | some entry =>
          obtain ⟨heq, hfit⟩ := EntriesFit.decrementFirst hst hneed
            (p := hasRoom group need) fun e _ hroom =>
              fits_iff.1 (Bool.and_eq_true_iff.1 hroom).1
          simp only [heq, Option.bind_eq_bind, Option.bind_some]
          exact ih _ hfit

theorem placeScoredChecked_eq {need : Resources} (hneed : 0 ≤ need) (n : ℕ)
    (st : FreeList × Plan) (hst : EntriesFit st.1)
    (hids : ((st.1.map Prod.fst).map Node.id).Nodup) :
    placeScoredChecked F eval s job group need n st =
        some (placeScored F eval s job group need n st) ∧
      EntriesFit (placeScored F eval s job group need n st).1 := by
  induction n generalizing st with
  | zero => exact ⟨rfl, hst⟩
  | succ n ih =>
      obtain ⟨free, plan⟩ := st
      rw [placeScoredChecked, placeScored, rankChecked_eq hst hneed]
      simp only [Option.bind_eq_bind, Option.bind_some]
      cases hr : (rank F s group need free).head? with
      | none => exact ⟨rfl, hst⟩
      | some best =>
          obtain ⟨avail, hmem, hroom⟩ := mem_of_rank_head F hr
          obtain ⟨heq, hfit⟩ := EntriesFit.decrementFirst hst hneed
            (p := fun e => e.1.id == best.node.id) fun e he hid => by
              rw [List.map_map] at hids
              obtain rfl := List.inj_on_of_nodup_map hids he hmem (by simpa using hid)
              exact fits_iff.1 (Bool.and_eq_true_iff.1 hroom).1
          dsimp only at heq hfit hids ⊢
          cases hfind : free.find? fun e => e.1.id == best.node.id with
          | none => exact ih _ hst hids
          | some entry =>
              simp only [heq, Option.bind_some]
              exact ih _ hfit (by rwa [decrementFirst_nodes])

/-- What a turn computes it computes exactly, once the demand of the group is added up. -/
theorem placeGroupChecked_eq_some_iff {st : FreeList × Plan} (hvalid : group.validate = .ok ())
    (hst : EntriesFit st.1) (hids : ((st.1.map Prod.fst).map Node.id).Nodup) :
    EntriesFit (placeGroup F eval s job st group).1 ∧
      ∀ st', placeGroupChecked F eval s job st group = some st' ↔
        groupDemand group ≤ Resources.i32Max ∧ st' = placeGroup F eval s job st group := by
  have hneed := groupDemand_nonneg hvalid
  obtain ⟨hexact, hfit⟩ : (if group.affinities.isEmpty && group.spreads.isEmpty then
        placeFirstFitChecked eval job group (groupDemand group) (max group.count 0).toNat st
      else placeScoredChecked F eval s job group (groupDemand group) (max group.count 0).toNat st) =
        some (placeGroup F eval s job st group) ∧
      EntriesFit (placeGroup F eval s job st group).1 := by
    unfold placeGroup
    split
    · exact placeFirstFitChecked_eq hneed _ st hst
    · exact placeScoredChecked_eq hneed _ st hst hids
  refine ⟨hfit, fun st' => ?_⟩
  simp only [placeGroupChecked, Option.bind_eq_bind, Option.bind_eq_some_iff,
    groupDemandChecked_eq_some_iff hvalid, and_assoc, exists_and_left, exists_eq_left, hexact,
    Option.some_inj]
  exact and_congr_right fun _ => eq_comm

/-! ## Whole evaluations -/

def Command.I32 : Command → Prop
  | .upsertJob job => ∀ g ∈ job.taskGroups, NomadRs.I32 g.count ∧ ∀ t ∈ g.tasks, t.resources.I32
  | .upsertNode node => node.resources.I32
  | .upsertAlloc alloc => alloc.resources.I32
  | .deregisterJob _ | .upsertEval _ => True

def StoreEvent.I32 : StoreEvent → Prop
  | .apply c => c.I32
  | .relayout => True

omit F [F64 F] [Crates] in
theorem i32_of_reachable {fsm : Fsm} (h : storeSystem.ReachableVia (fun _ e => e.I32) fsm) :
    ∀ node ∈ fsm.state.listNodes, node.resources.I32 := by
  refine h.invariant (fun fsm => ∀ node ∈ fsm.state.listNodes, node.resources.I32) ?_ ?_
  · rintro _ rfl
    simp [Fsm.new, StateStore.new, StateStore.listNodes]
  · intro fsm event fsm' hs hevent hstep
    cases hstep with
    | apply c =>
        rcases fsm.apply_cases c with ⟨_, happ⟩ | ⟨_, e, happ⟩
        · rw [happ]
          cases c with
          | upsertNode node =>
              intro n hn
              rcases HashMap.mem_values_insert hn with rfl | hn
              · exact hevent
              · exact hs n hn
          | _ => exact hs
        · rw [happ]
          exact hs
    | relayout _ hr => exact fun node hnode => hs node (hr.nodes.values_perm.mem_iff.2 hnode)

omit [Crates] in
theorem initialFreeChecked_eq_some_iff (hnodes : ∀ node ∈ s.listNodes, node.resources.I32)
    {free : FreeList} : initialFreeChecked s = some free ↔
      (∀ node ∈ s.listNodes, nodeEligible node = true → FreeFits s node) ∧
      free = initialFree s := by
  rw [initialFreeChecked, mapM_eq_some_iff (P := FreeFits s) (g := fun n => (n, freeCapacity n s))]
  · simp only [List.mem_filter, and_imp, initialFree]
  · intro node hnode entry
    simp only [Option.map_eq_some_iff,
      freeCapacityChecked_eq_some_iff (hnodes node (List.mem_filter.1 hnode).1), and_assoc,
      exists_and_left, exists_eq_left]
    exact and_congr_right fun _ => eq_comm

omit [Crates] in
theorem entriesFit_initialFree (hfree : ∀ node ∈ s.listNodes, nodeEligible node = true →
    node.resources.I32 ∧ (node.resources - usage s node.id).I32) : EntriesFit (initialFree s) := by
  intro e he
  obtain ⟨node, hnode, rfl⟩ := List.mem_map.1 he
  obtain ⟨hmem, helig⟩ := List.mem_filter.1 hnode
  rw [freeCapacity_eq]
  exact hfree node hmem helig

variable (F)

/-- A checked evaluation gives the plan of the exact one, or none if a sum overflows. -/
theorem processEvalChecked_eq (hs : s.WellFormed)
    (hnodes : ∀ node ∈ s.listNodes, node.resources.I32) (hj : s.getJob eval.jobId = some job)
    {plan : Plan} : processEvalChecked F eval s = some plan ↔
      (∀ node ∈ s.listNodes, nodeEligible node = true → FreeFits s node) ∧
      (∀ group ∈ job.taskGroups, groupDemand group ≤ Resources.i32Max) ∧
      plan = processEval F eval s := by
  have hrest (hfree : ∀ node ∈ s.listNodes, nodeEligible node = true → FreeFits s node)
      (st : FreeList × Plan) :
      job.taskGroups.foldlM (placeGroupChecked F eval s job) (initialFree s, {}) = some st ↔
        (∀ group ∈ job.taskGroups, groupDemand group ≤ Resources.i32Max) ∧
        st = job.taskGroups.foldl (placeGroup F eval s job) (initialFree s, {}) := by
    refine foldlM_eq_some_iff
      (fun st => EntriesFit st.1 ∧ ((st.1.map Prod.fst).map Node.id).Nodup)
      (fun group hg st hst => ?_) ⟨entriesFit_initialFree fun node hmem helig =>
        ⟨hnodes node hmem, hfree node hmem helig _ List.prefix_rfl⟩, hs.nodup_initialFree⟩
    obtain ⟨k, _, hsteps, _⟩ := (placeGroup_turn F eval job group s st hst.2).fills
    have hids : (((placeGroup F eval s job st group).1.map Prod.fst).map Node.id).Nodup :=
      (placeSteps_nodes_eq hsteps).symm ▸ hst.2
    refine (placeGroupChecked_eq_some_iff (hs.group_ok hj hg) hst.1 hst.2).imp_left ?_
    exact fun hfit => ⟨hfit, hids⟩
  simp only [processEvalChecked, processEval, hj, Option.bind_eq_bind, Option.bind_eq_some_iff,
    initialFreeChecked_eq_some_iff hnodes, and_assoc, exists_and_left, exists_eq_left]
  refine and_congr_right fun hfree => ?_
  simp only [hrest hfree, Option.pure_def, Option.some_inj, and_assoc, exists_and_left,
    exists_eq_left]
  exact and_congr_right fun _ => eq_comm

/-- No operation of the scheduler on the evaluation leaves the range of `i32`. -/
def NoOverflow (eval : Evaluation) (s : StateStore) : Prop :=
  (processEvalChecked F eval s).isSome ∧ (desiredCountChecked eval s).isSome

/-- Nothing overflows exactly when the demand of each group, the instances of the job and what the
allocations leave of each eligible node fit. -/
theorem noOverflow_iff {fsm : Fsm} (h : storeSystem.ReachableVia (fun _ e => e.I32) fsm)
    (eval : Evaluation) : NoOverflow F eval fsm.state ↔
      ∀ job, fsm.state.getJob eval.jobId = some job →
        (∀ group ∈ job.taskGroups,
          (group.tasks.map Task.resources).sum ≤ Resources.i32Max) ∧
        (job.taskGroups.map TaskGroup.count).sum ≤ i32Max ∧
        ∀ node ∈ fsm.state.listNodes, nodeEligible node = true → FreeFits fsm.state node := by
  have hs := Fsm.wellFormed_of_reachable (h.mono fun _ _ _ => trivial)
  cases hj : fsm.state.getJob eval.jobId with
  | none => simp [NoOverflow, processEvalChecked, desiredCountChecked, hj]
  | some job =>
      simp only [NoOverflow, Option.isSome_iff_exists (x := processEvalChecked F eval fsm.state),
        processEvalChecked_eq F hs (i32_of_reachable h) hj, exists_and_left, exists_eq, and_true,
        desiredCountChecked_isSome_iff hj (hs.jobs _ _ hj).2, Option.some_inj, forall_eq',
        groupDemand_eq]
      tauto

end Runs

/-! ## Two tasks of the largest size -/

section Runs
attribute [local instance] Crates.literal

theorem registered_i32 {job : Job} (h : (Command.upsertJob job).I32) :
    storeSystem.ReachableVia (fun _ e => e.I32) (Fsm.registered [oneNode] job) := by
  have hnode : (StoreEvent.apply (.upsertNode oneNode)).I32 := by
    change Resources.I32 _
    decide
  exact ((System.ReachableVia.start (S := storeSystem) rfl).next (.apply .new _) hnode).next
    (.apply _ (.upsertJob job)) h

theorem noOverflow_iff_webJob :
    NoOverflow ℚ (webEval "eval-1") (Fsm.registered [oneNode] (webJob 1)).state := by
  have hweb : (Command.upsertJob (webJob 1)).I32 := by
    change ∀ g ∈ _, _ ∧ ∀ t ∈ _, _
    decide
  refine (noOverflow_iff ℚ (registered_i32 hweb) (webEval "eval-1")).2 fun job hjob => ?_
  obtain rfl : webJob 1 = job := Option.some_inj.1 hjob
  refine ⟨by decide, by decide, fun node hnode _ as has => ?_⟩
  obtain rfl : node = oneNode := List.mem_singleton.1 hnode
  obtain rfl : as = [] := List.prefix_nil.1 has
  decide

/-- A valid job whose two tasks ask for all of an `i32` each. -/
def twoLargest : Job :=
  let task (name : String) : Task := { name, driver := "docker", resources := ⟨i32Max, 512, 10⟩ }
  { webJob 1 with
    taskGroups := (webJob 1).taskGroups.map fun g =>
      { g with tasks := [task "redis", task "sidecar"] } }

theorem demand_overflows : ¬ ∀ (fsm : Fsm) (eval : Evaluation),
    storeSystem.ReachableVia (fun _ e => e.I32) fsm → NoOverflow ℚ eval fsm.state := by
  intro h
  have hjob : (Command.upsertJob twoLargest).I32 := by
    change ∀ g ∈ _, _ ∧ ∀ t ∈ _, _
    decide
  have hrun := (h _ (webEval "eval-1") (registered_i32 hjob)).1
  revert hrun
  decide +kernel

end Runs
end NomadRs
