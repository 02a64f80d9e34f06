import NomadRs.Instances
import NomadRs.PlacementRules
import NomadRs.Scoring

/-!
# Several instances in one plan, or one at a time

The free list accounts for the instances that the plan has placed already; the spread bonus does
not, since it counts the allocations of the state. So a plan for `count` instances chooses the nodes
that `count` evaluations for one instance would choose exactly as long as the node that comes first
still does when the instances placed so far are added to the counts (`batch_eq_oneAtATime_iff`), as
is the case without spreads. Otherwise a plan may put together what it should spread
(`batch_ignores_spread`).
-/

namespace NomadRs

def Job.single (job : Job) (group : TaskGroup) : Job :=
  { job with taskGroups := [{ group with count := 1 }] }

theorem Job.single_validate {job : Job} {group : TaskGroup} (hgroups : job.taskGroups = [group])
    (h : job.validate = .ok ()) : (job.single group).validate = .ok () := by
  obtain ⟨hname, hpriority, hsome, hnames, hvalid⟩ := validate_eq_ok.1 h
  have hgroup : group.validate = .ok () := hvalid group (by simp [hgroups])
  obtain ⟨hgroupName, _, htasks⟩ := TaskGroup.validate_eq_ok.1 hgroup
  refine validate_eq_ok.2 ⟨hname, hpriority, hsome, hnames, fun one hone => ?_⟩
  obtain rfl := List.mem_singleton.1 hone
  exact TaskGroup.validate_eq_ok.2 ⟨hgroupName, Int.one_nonneg, htasks⟩

/-! ## What the spread bonus counts -/

section Counts
variable (s : StateStore) (group : TaskGroup)

def onValue (attr value : String) (nodeId : NodeId) : Bool :=
  (s.getNode nodeId).any fun n => n.attributes.lookup attr == some value

/-- The live allocations, and instances on the nodes `counted`. -/
def liveCount (counted : List NodeId) : ℕ :=
  s.listAllocs.countP (fun a => isLive a.clientStatus) + counted.length

/-- Those of them that are on nodes with the value. -/
def valueCount (counted : List NodeId) (attr value : String) : ℕ :=
  s.listAllocs.countP (fun a => onValue s attr value a.nodeId && isLive a.clientStatus) +
    counted.countP (onValue s attr value)

/-- The spread bonus of a node by these counts. -/
def countedBonus (counted : List NodeId) (node : Node) : ℚ :=
  if liveCount s counted = 0 then 0 else
  spreadSum group node fun spread value => spread.usedShare s value -
    (valueCount s counted spread.attr value / liveCount s counted : ℚ) * 100

variable {s group}

theorem bonusFor_of_no_live {node : Node}
    (h : (s.listAllocs.filter fun a => isLive a.clientStatus) = []) :
    bonusFor ℚ group node s = 0 := by
  have hstep (bonus : ℚ) (spread : Spread) : spreadStep ℚ node s bonus spread = bonus := by
    unfold spreadStep
    split
    · rfl
    · simp [h]
  exact List.foldl_fixed' (hstep 0) _

theorem bonusFor_eq_countedBonus (node : Node) :
    bonusFor ℚ group node s = countedBonus s group [] node := by
  have hlen : liveCount s [] = (s.listAllocs.filter fun a => isLive a.clientStatus).length := by
    rw [liveCount, List.countP_eq_length_filter, List.length_nil, Nat.add_zero]
  by_cases h : (s.listAllocs.filter fun a => isLive a.clientStatus) = []
  · rw [bonusFor_of_no_live h, countedBonus, if_pos (by rw [hlen, h]; rfl)]
  · rw [bonusFor_eq h, countedBonus, if_neg (by rwa [hlen, List.length_eq_zero_iff])]
    refine congrArg (spreadSum group node) (funext₂ fun spread value => ?_)
    rw [currentShare, hlen, valueCount, List.countP_nil, Nat.add_zero,
      List.countP_eq_length_filter, List.filter_filter]
    rfl

theorem countedBonus_commitAll {as : List Allocation} (hids : (as.map Allocation.id).Nodup)
    (hnew : ∀ a ∈ as, s.getAlloc a.id = none) (hlive : ∀ a ∈ as, isLive a.clientStatus = true)
    (node : Node) : countedBonus (s.commitAll as) group [] node =
      countedBonus s group (as.map Allocation.nodeId) node := by
  have hall : liveCount (s.commitAll as) [] = liveCount s (as.map Allocation.nodeId) := by
    rw [liveCount, countP_commitAll_of_fresh _ hids hnew, List.countP_eq_length.2 hlive, liveCount,
      List.length_map]
    rfl
  have hvalue (attr value : String) : valueCount (s.commitAll as) [] attr value =
      valueCount s (as.map Allocation.nodeId) attr value := by
    rw [valueCount, countP_commitAll_of_fresh _ hids hnew, valueCount, List.countP_map]
    simp only [onValue, StateStore.getNode_commitAll, List.countP_nil, Nat.add_zero]
    refine congrArg _ (List.countP_congr fun a ha => ?_)
    simp [onValue, hlive a ha]
  simp only [countedBonus, hall, hvalue, Spread.usedShare, Spread.evenShare, presentValues,
    StateStore.listNodes, StateStore.commitAll_nodes]

end Counts

/-! ## The node that comes first -/

section Order
variable [Crates] (s : StateStore) (group : TaskGroup)

omit [Crates] in
/-- The eligible nodes with what is free once instances of the group are on the nodes `placed`. -/
def freeAfter (placed : List NodeId) : FreeList :=
  (s.listNodes.filter nodeEligible).map fun n =>
    (n, freeCapacity n s - placed.count n.id • groupDemand group)

def countedScore (counted : List NodeId) (e : FreeEntry) : ℚ :=
  scoreNode ℚ e.1.1 e.1.2 (groupDemand group) group (countedBonus s group counted e.1.1)

/-- An entry has room, and every other one with room scores less, or the same further back. -/
def ComesFirst (placed counted : List NodeId) (e : FreeEntry) : Prop :=
  takes group e = true ∧ ∀ d ∈ (freeAfter s group placed).zipIdx, takes group d = true →
    countedScore s group counted d < countedScore s group counted e ∨
      (countedScore s group counted d = countedScore s group counted e ∧ e.2 ≤ d.2)

/-- As `n` instances are placed, each on the node that comes first by the counts of the state, this
node comes first also if the instances placed before it are counted. -/
def KeepsFirst : ℕ → List NodeId → Prop
  | 0, _ => True
  | n + 1, placed => ∀ e ∈ (freeAfter s group placed).zipIdx, ComesFirst s group placed [] e →
      ComesFirst s group placed placed e ∧ KeepsFirst n (placed ++ [e.1.1.id])

variable {s group}

omit [Crates] in
theorem remaining_eq_freeAfter {as : List Allocation}
    (has : ∀ a ∈ as, a.resources = groupDemand group ∧ isLive a.clientStatus = true) :
    remaining s as = freeAfter s group (as.map Allocation.nodeId) := by
  have husage (id : NodeId) :
      planUsage id as = (as.map Allocation.nodeId).count id • groupDemand group := by
    induction as with
    | nil => simp [planUsage]
    | cons a as ih =>
        obtain ⟨⟨hres, hlive⟩, has⟩ := List.forall_mem_cons.1 has
        rw [planUsage, List.map_cons, List.sum_cons, ← planUsage, ih has, List.map_cons,
          List.count_cons]
        by_cases hid : a.nodeId = id
        · rw [charge, if_pos ⟨hid, hlive⟩, if_pos (by simpa using hid), hres, succ_nsmul, add_comm]
        · rw [charge, if_neg fun h => hid h.1, if_neg (by simpa using hid), zero_add, Nat.add_zero]
  simp only [remaining, freeAfter, husage]

/-- For a group with spreads the best entry is the one that comes first by the counts. -/
theorem best_iff {t : StateStore} {counted : List NodeId} (placed : List NodeId)
    (hspreads : group.spreads ≠ [])
    (hbonus : ∀ node, bonusFor ℚ group node t = countedBonus s group counted node)
    (e : FreeEntry) : Best ℚ t group (freeAfter s group placed) e ↔
      e ∈ (freeAfter s group placed).zipIdx ∧ ComesFirst s group placed counted e := by
  have hscore (e : FreeEntry) : entryScore ℚ t group e = countedScore s group counted e := by
    rw [entryScore, hbonus, countedScore]
  have hahead (d : FreeEntry) : ¬ Ahead ℚ t group d e ↔
      countedScore s group counted d < countedScore s group counted e ∨
        (countedScore s group counted d = countedScore s group counted e ∧ e.2 ≤ d.2) := by
    have hranked : ¬ (group.affinities.isEmpty && group.spreads.isEmpty) = true := by
      simp [hspreads]
    rw [Ahead, entryCmp, if_neg hranked, hscore, hscore]
    change ¬ ((compare (countedScore s group counted e) (countedScore s group counted d)).then
      (compare d.2 e.2)) = .lt ↔ _
    rw [Ordering.then_eq_lt, compare_lt_iff_lt, compare_eq_iff_eq, compare_lt_iff_lt]
    rcases lt_trichotomy (countedScore s group counted d) (countedScore s group counted e) with
      h | h | h
    · simp [h, h.ne', h.le]
    · simp [h]
    · simp [h, h.ne', h.le]
  constructor
  · intro h
    exact ⟨h.mem, h.takes, fun d hd hroom => (hahead d).1 (h.first d hd hroom)⟩
  · rintro ⟨hmem, hroom, hfirst⟩
    exact ⟨hmem, hroom, fun d hd hd' => (hahead d).2 (hfirst d hd hd')⟩

end Order

section Runs
variable [Crates] (F : Type) [F64 F]

/-- The nodes that one evaluation after the other is placed on, until one is not placed. -/
def oneAtATime : List Evaluation → Fsm → List NodeId
  | [], _ => []
  | eval :: evals, fsm =>
    match Release.processAndApply F eval fsm with
    | (.error _, _) => []
    | (.ok plan, fsm') =>
      if plan.allocs.isEmpty then []
      else plan.allocs.map Allocation.nodeId ++ oneAtATime evals fsm'

/-- The nodes the state `s` chooses one after the other; `as` is what is placed already. -/
def chosenNodes (s : StateStore) (job : Job) (group : TaskGroup) :
    List Evaluation → List Allocation → List NodeId
  | [], _ => []
  | eval :: evals, as =>
    match choice F s group (remaining s as) with
    | none => []
    | some nodeId => nodeId :: chosenNodes s job group evals
        (as ++ [makeAlloc eval {} job group (groupDemand group) nodeId])

/-- Every node that the state `s` chooses is also chosen once the instances placed before are
committed. -/
def SpreadUpToDate (s : StateStore) (job : Job) (group : TaskGroup) :
    List Evaluation → List Allocation → Prop
  | [], _ => True
  | eval :: evals, as =>
    choice F (s.commitAll as) group (remaining s as) = choice F s group (remaining s as) ∧
    ∀ nodeId, choice F s group (remaining s as) = some nodeId → SpreadUpToDate s job group evals
      (as ++ [makeAlloc eval {} job group (groupDemand group) nodeId])

variable {F} {job : Job} {group : TaskGroup} {s : StateStore}

/-! ## One plan -/

omit [Crates] in
theorem remaining_congr {as bs : List Allocation} (h : ∀ id, planUsage id bs = planUsage id as) :
    remaining s bs = remaining s as := by simp only [remaining, h]

/-- A plan for one group chooses all nodes by the state it is computed from. -/
theorem foldl_placeNext_nodes (eval : Evaluation) (evals : List Evaluation)
    {as bs : List Allocation} (h : ∀ id, planUsage id bs = planUsage id as) :
    ((List.replicate evals.length group).foldl (placeNext F s eval job) bs).map Allocation.nodeId =
      bs.map Allocation.nodeId ++ chosenNodes F s job group evals as := by
  induction evals generalizing as bs with
  | nil => simp [chosenNodes]
  | cons e evals ih =>
      cases hc : choice F s group (remaining s as) with
      | none =>
          rw [foldl_placeNext_of_none (by rw [remaining_congr h, hc])]
          simp [chosenNodes, hc]
      | some nodeId =>
          have hcharged : ∀ id,
              planUsage id (bs ++ [makeAlloc eval ⟨bs⟩ job group (groupDemand group) nodeId]) =
                planUsage id (as ++ [makeAlloc e {} job group (groupDemand group) nodeId]) := by
            intro id
            rw [planUsage_append, planUsage_append, h id]
            rfl
          rw [List.length_cons, List.replicate_succ, List.foldl_cons,
            placeNext_of_some (by rw [remaining_congr h, hc]), ih hcharged]
          simp [chosenNodes, hc, makeAlloc]

/-! ## One plan after the other -/

theorem processEval_single {eval : Evaluation} (hs : s.WellFormed)
    (hj : s.getJob eval.jobId = some (job.single group)) :
    (processEval F eval s).allocs = placeNext F s eval job [] group := by
  rw [processEval_allocs F hs hj]
  rfl

def Evaluation.soloId (eval : Evaluation) : AllocId := s!"{eval.id}-{(0 : ℕ)}"

def Fresh (s : StateStore) (ids : List AllocId) : Prop :=
  ids.Nodup ∧ ∀ id ∈ ids, s.getAlloc id = none

theorem oneAtATime_eq_iff {evals : List Evaluation} {as : List Allocation} {fsm : Fsm}
    (hs : fsm.state.WellFormed) {jobs : HashMap String Job}
    (hfsm : fsm.state = { s.commitAll as with jobs })
    (hj : fsm.state.getJob job.name = some (job.single group))
    (hfit : Release.SumsFit (job.single group) fsm.state)
    (hevals : ∀ e ∈ evals, e.jobId = job.name)
    (hfresh : Fresh s (as.map Allocation.id ++ evals.map Evaluation.soloId)) :
    oneAtATime F evals fsm = chosenNodes F s job group evals as ↔
      SpreadUpToDate F s job group evals as := by
  induction evals generalizing as fsm with
  | nil => simp [oneAtATime, chosenNodes, SpreadUpToDate]
  | cons eval evals ih =>
      obtain ⟨hjob, hevals⟩ := List.forall_mem_cons.1 hevals
      have hchoice : choice F fsm.state group (remaining fsm.state []) =
          choice F (s.commitAll as) group (remaining s as) := by
        rw [hfsm, choice_with_jobs, ← remaining_commitAll hfresh.1.of_append_left
          fun a ha => hfresh.2 _ (List.mem_append_left _ (List.mem_map_of_mem ha))]
        rfl
      have hplan := processEval_single (F := F) hs (hjob ▸ hj)
      have hstate := processAndApply_wellFormed F hs eval
      rw [processAndApply_of_wellFormed F hs] at hstate
      have hsums : ∀ stored, fsm.state.getJob eval.jobId = some stored →
          Release.SumsFit stored fsm.state := fun stored hstored =>
        Option.some_inj.1 ((hjob ▸ hj).symm.trans hstored) ▸ hfit
      rw [oneAtATime, chosenNodes, SpreadUpToDate, Release.processAndApply_eq F hs hsums,
        processAndApply_of_wellFormed F hs]
      cases hc : choice F s group (remaining s as) with
      | none =>
          have hfull : choice F (s.commitAll as) group (remaining s as) = none :=
            (choice_eq_none_iff F).2 ((choice_eq_none_iff F).1 hc)
          rw [placeNext_of_none (hchoice.trans hfull)] at hplan
          simp [hplan, hfull]
      | some nodeId =>
          obtain ⟨next, hnext⟩ : ∃ next, choice F (s.commitAll as) group (remaining s as) =
              some next := by
            rw [← Option.isSome_iff_exists, Option.isSome_iff_ne_none]
            intro hnone
            rw [(choice_eq_none_iff F).2 ((choice_eq_none_iff F).1 hnone)] at hc
            cases hc
          rw [placeNext_of_some (hchoice.trans hnext), List.nil_append] at hplan
          have hunused : ∀ a ∈ (processEval F eval fsm.state).allocs,
              fsm.state.getAlloc a.id = none := by
            rw [hplan]
            intro a ha
            obtain rfl := List.mem_singleton.1 ha
            have hown : ∀ b ∈ as, b.id ≠ eval.soloId := fun b hb heq =>
              (List.nodup_append'.1 hfresh.1).2.2 (List.mem_map_of_mem hb)
                (heq ▸ List.mem_cons_self)
            rw [hfsm]
            exact (StateStore.getAlloc_commitAll_of_notMem hown).trans
              (hfresh.2 _ (List.mem_append_right _ List.mem_cons_self))
          have hnextFit := hfit.commitAll F hs (by rw [hplan]; exact List.nodup_singleton _) hunused
          rw [hplan] at hstate hnextFit
          simp only [hplan, hnext, List.isEmpty_cons, Bool.false_eq_true, if_false, List.map_cons,
            List.map_nil, List.singleton_append, List.cons_eq_cons, Option.some_inj,
            forall_eq']
          refine and_congr_right ?_
          rintro rfl
          refine ih hstate ?_ ?_ hnextFit hevals ?_
          · rw [hfsm, StateStore.commitAll_append]
            rfl
          · rw [StateStore.getJob, StateStore.commitAll_jobs]
            exact hj
          · rwa [List.map_append, List.append_assoc]

/-! ## Counts that are up to date -/

theorem spreadUpToDate_of_no_spreads (hspreads : group.spreads = []) (evals : List Evaluation)
    (as : List Allocation) : SpreadUpToDate F s job group evals as := by
  induction evals generalizing as with
  | nil => trivial
  | cons eval evals ih => exact ⟨choice_of_no_spreads F hspreads _ _, fun _ _ => ih _⟩

theorem keepsFirst_of_no_spreads (hspreads : group.spreads = []) (n : ℕ) (placed : List NodeId) :
    KeepsFirst s group n placed := by
  have hbonus (counted : List NodeId) (node : Node) : countedBonus s group counted node = 0 := by
    simp [countedBonus, spreadSum, hspreads]
  induction n generalizing placed with
  | zero => trivial
  | succ n ih =>
      refine fun e _ hfirst => ⟨?_, ih _⟩
      simpa only [ComesFirst, countedScore, hbonus] using hfirst

omit [Crates] in
theorem eq_of_mem_remaining (hs : s.WellFormed) {as : List Allocation} {e d : FreeEntry}
    (he : e ∈ (remaining s as).zipIdx) (hd : d ∈ (remaining s as).zipIdx)
    (hid : e.1.1.id = d.1.1.id) : e = d := by
  have hnodup : ((remaining s as).map fun entry => entry.1.id).Nodup := by
    rw [remaining, List.map_map]
    exact hs.nodup_nodeIds.sublist (List.filter_sublist.map Node.id)
  rw [List.mem_zipIdx_iff_getElem?] at he hd
  have hpos : e.2 = d.2 := by
    have hlt : e.2 < ((remaining s as).map fun entry => entry.1.id).length := by
      simpa using (List.getElem?_eq_some_iff.1 he).1
    refine (List.getElem?_inj hlt hnodup).1 ?_
    rw [List.getElem?_map, List.getElem?_map, he, hd, Option.map_some, Option.map_some, hid]
  rw [hpos, hd, Option.some_inj] at he
  exact Prod.ext he.symm hpos

theorem spreadUpToDate_iff (hs : s.WellFormed) (hspreads : group.spreads ≠ [])
    {evals : List Evaluation} {as : List Allocation}
    (has : ∀ a ∈ as, a.resources = groupDemand group ∧ isLive a.clientStatus = true)
    (hfresh : Fresh s (as.map Allocation.id ++ evals.map Evaluation.soloId)) :
    SpreadUpToDate ℚ s job group evals as ↔
      KeepsFirst s group evals.length (as.map Allocation.nodeId) := by
  induction evals generalizing as with
  | nil => exact Iff.rfl
  | cons eval evals ih =>
      have hnew : ∀ a ∈ as, s.getAlloc a.id = none := fun a ha =>
        hfresh.2 _ (List.mem_append_left _ (List.mem_map_of_mem ha))
      have hstale := best_iff (as.map Allocation.nodeId) hspreads fun node =>
        bonusFor_eq_countedBonus (s := s) node
      have hcounted := best_iff (as.map Allocation.nodeId) hspreads fun node =>
        (bonusFor_eq_countedBonus (s := s.commitAll as) node).trans
          (countedBonus_commitAll hfresh.1.of_append_left hnew (fun a ha => (has a ha).2) node)
      rw [← remaining_eq_freeAfter has] at hstale hcounted
      rw [SpreadUpToDate, List.length_cons, KeepsFirst, ← remaining_eq_freeAfter has]
      cases hc : choice ℚ s group (remaining s as) with
      | none =>
          have hfull := (choice_eq_none_iff ℚ).1 hc
          refine iff_of_true ⟨(choice_eq_none_iff ℚ).2 hfull, by simp⟩ fun e he hfirst => ?_
          have hroom : hasRoom group (groupDemand group) e.1 = true := hfirst.1
          rw [hfull e.1 (List.fst_mem_of_mem_zipIdx he)] at hroom
          cases hroom
      | some nodeId =>
          obtain ⟨e, hbest, rfl⟩ := exists_best hc
          have hnext := @ih (as ++ [makeAlloc eval {} job group (groupDemand group) e.1.1.id])
            (List.forall_mem_append.2 ⟨has, List.forall_mem_singleton.2 ⟨rfl, rfl⟩⟩)
            (by rwa [List.map_append, List.append_assoc])
          rw [List.map_append] at hnext
          simp only [Option.some_inj, forall_eq', hnext]
          constructor
          · rintro ⟨hsame, hkeeps⟩ d hd hfirst
            obtain rfl := hbest.unique ((hstale d).2 ⟨hd, hfirst⟩)
            obtain ⟨d, hbest', hid⟩ := exists_best hsame
            obtain rfl := eq_of_mem_remaining hs hbest'.mem hbest.mem hid
            exact ⟨((hcounted d).1 hbest').2, hkeeps⟩
          · intro h
            obtain ⟨hfirst, hkeeps⟩ := h e hbest.mem ((hstale e).1 hbest).2
            exact ⟨((hcounted e).2 ⟨hbest.mem, hfirst⟩).choice_eq, hkeeps⟩

/-- One plan chooses the nodes that evaluations for one instance each would choose, exactly when
the node that comes first keeps doing so as the instances placed before it are counted. -/
theorem batch_eq_oneAtATime_iff {fsm : Fsm} (h : storeSystem.Reachable fsm) {eval : Evaluation}
    (hj : fsm.state.getJob eval.jobId = some job) (hgroups : job.taskGroups = [group])
    (hfit : Release.SumsFit job fsm.state) {evals : List Evaluation}
    (hlen : evals.length = (max group.count 0).toNat) (hevals : ∀ e ∈ evals, e.jobId = job.name)
    (hfresh : Fresh fsm.state (evals.map Evaluation.soloId)) :
    (Release.processEval ℚ eval fsm.state).allocs.map Allocation.nodeId =
        oneAtATime ℚ evals (fsm.apply (.upsertJob (job.single group))).2 ↔
      KeepsFirst fsm.state group (max group.count 0).toNat [] := by
  have hs := fsm.wellFormed_of_reachable h
  have hbatch : (Release.processEval ℚ eval fsm.state).allocs.map Allocation.nodeId =
      chosenNodes ℚ fsm.state job group evals [] := by
    rw [Release.processEval_eq_of_job ℚ hs hj hfit, processEval_allocs ℚ hs hj, Job.wanted,
      hgroups, List.flatMap_singleton, ← hlen, foldl_placeNext_nodes eval evals fun _ => rfl]
    rfl
  have hupToDate : SpreadUpToDate ℚ fsm.state job group evals [] ↔
      KeepsFirst fsm.state group (max group.count 0).toNat [] := by
    by_cases hspreads : group.spreads = []
    · exact iff_of_true (spreadUpToDate_of_no_spreads hspreads _ _)
        (keepsFirst_of_no_spreads hspreads _ _)
    · rw [← hlen]
      exact spreadUpToDate_iff hs hspreads (by simp) (by simpa using hfresh)
  have hvalid := Job.single_validate hgroups (hs.jobs _ _ hj).2
  rcases fsm.apply_cases (.upsertJob (job.single group)) with ⟨hacc, happly⟩ | ⟨hnot, _⟩
  · rw [hbatch, happly, eq_comm, ← hupToDate]
    refine oneAtATime_eq_iff (hs.applied hacc) rfl (AList.lookup_insert _)
      ⟨fun g hg => ?_, hfit.free⟩ hevals (by simpa using hfresh)
    obtain rfl := List.mem_singleton.1 hg
    exact hfit.demand group (by simp [hgroups])
  · exact absurd hvalid hnot

end Runs

/-! ## Two racks -/

section Runs
attribute [local instance] Crates.literal

theorem batch_eq_oneAtATime_web :
    (Release.processEval ℚ (webEval "eval-1")
      (Fsm.registered [oneNode] (webJob 2)).state).allocs.map Allocation.nodeId =
      oneAtATime ℚ [webEval "eval-2", webEval "eval-3"]
        ((Fsm.registered [oneNode] (webJob 2)).apply (.upsertJob (webJob 1))).2 := by
  have hreach := Fsm.registered_reachable [oneNode] (webJob 2)
  have hgroups : (webJob 2).taskGroups = [_] := rfl
  exact (batch_eq_oneAtATime_iff hreach (by decide) hgroups (by decide) (by decide) (by decide)
    ⟨by decide, by decide⟩).2 (keepsFirst_of_no_spreads rfl _ _)

def rackNode (n : ℕ) : Node := { oneNode with
  id := s!"node-{n}"
  name := s!"node-{n}"
  attributes := (∅ : HashMap String String).insert "rack" s!"rack-{n}" }

def spreadJob (count : Int) : Job :=
  { webJob count with
    taskGroups := (webJob count).taskGroups.map fun group =>
      { group with spreads := [{ attr := "rack", targets := [] }] } }

def racks : Fsm := Fsm.registered [rackNode 1, rackNode 2] (spreadJob 2)

/-- One plan puts both instances into one rack, two plans use both racks. -/
theorem batch_ignores_spread : ¬ ∀ (fsm : Fsm) (eval : Evaluation) (job : Job) (group : TaskGroup)
    (evals : List Evaluation), storeSystem.Reachable fsm →
      fsm.state.getJob eval.jobId = some job → job.taskGroups = [group] →
      evals.length = (max group.count 0).toNat → (∀ e ∈ evals, e.jobId = job.name) →
      Fresh fsm.state (evals.map Evaluation.soloId) →
        (Release.processEval ℚ eval fsm.state).allocs.map Allocation.nodeId =
          oneAtATime ℚ evals (fsm.apply (.upsertJob (job.single group))).2 := by
  intro h
  have heq := h racks (webEval "eval-1") (spreadJob 2) _ [webEval "eval-2", webEval "eval-3"]
    (Fsm.registered_reachable _ _) (by decide) rfl (by decide) (by decide) ⟨by decide, by decide⟩
  revert heq
  decide +kernel

end Runs
end NomadRs
