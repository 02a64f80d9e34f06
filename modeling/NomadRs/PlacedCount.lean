import NomadRs.Choice
import NomadRs.Packing

/-!
# How many instances are placed

A turn places until the group has its count or no node has room, and every placement takes one off
what the free list can still hold (`Place.take`). So it makes the same number of placements
whichever nodes it chooses: neither scores nor the order of the nodes play a part in it.
-/

namespace NomadRs

section Counts
variable [Crates] {eval : Evaluation} {job : Job} {group : TaskGroup} {st st' : FreeList × Plan}

def bins (group : TaskGroup) (free : FreeList) : List Resources :=
  (free.filter fun e => meetsConstraints e.1 group).map Prod.snd

/-- How many instances the nodes that meet the group's constraints hold, each as many as its free
capacity covers in succession. -/
noncomputable def capacityFor (group : TaskGroup) (free : FreeList) : ℕ∞ :=
  Packing.total (groupDemand group) (bins group free)

theorem Place.take (hp : Place eval job group st st') :
    Packing.Take (groupDemand group) (bins group st.1) (bins group st'.1) := by
  obtain ⟨l₁, node, avail, l₂, plan, hroom⟩ := hp
  rw [hasRoom, Bool.and_eq_true] at hroom
  obtain ⟨hfit, hmeets⟩ := hroom
  have hkeep (r : Resources) : bins group (l₁ ++ (node, r) :: l₂) =
      bins group l₁ ++ r :: bins group l₂ := by
    simp only [bins, List.filter_append, List.map_append, List.filter_cons, hmeets, if_true,
      List.map_cons]
  rw [hkeep, hkeep]
  exact .pay _ avail _ (fits_iff.1 hfit)

theorem not_le_of_no_room {free : FreeList}
    (h : ∀ e ∈ free, hasRoom group (groupDemand group) e = false) :
    ∀ avail ∈ bins group free, ¬ groupDemand group ≤ avail := by
  intro avail ha hle
  obtain ⟨e, he, rfl⟩ := List.mem_map.1 ha
  obtain ⟨hmem, hmeets⟩ := List.mem_filter.1 he
  have hno := h e hmem
  rw [hasRoom, fits_iff.2 hle, hmeets] at hno
  cases hno

theorem placeSteps_append {k : ℕ} (h : Steps (Place eval job group) k st st') :
    ∃ as, st'.2.allocs = st.2.allocs ++ as ∧ as.length = k := by
  have hplace : ∀ st st' : FreeList × Plan, True → Place eval job group st st' →
      True ∧ ∃ a, st'.2.allocs = st.2.allocs ++ [a] ∧ True := by
    rintro _ _ _ ⟨l₁, node, avail, l₂, plan, _⟩
    exact ⟨trivial, _, rfl, trivial⟩
  obtain ⟨as, has, hlen, _⟩ := h.collect (fun _ => True) (fun st => st.2.allocs) _ hplace trivial
  exact ⟨as, has, hlen⟩

theorem Fills.length_eq {n : ℕ} (h : Fills eval job group n st st') :
    ∃ as, st'.2.allocs = st.2.allocs ++ as ∧
      (as.length : ℕ∞) = min (n : ℕ∞) (capacityFor group st.1) := by
  obtain ⟨k, hk, hsteps, hend⟩ := h
  obtain ⟨as, has, rfl⟩ := placeSteps_append hsteps
  refine ⟨as, has, Packing.steps_eq_min ?_ hk (hend.imp_right not_le_of_no_room)⟩
  exact hsteps.map (fun st => bins group st.1) fun _ _ hp => hp.take

theorem capacityFor_perm {free free' : FreeList} (h : free.Perm free') :
    capacityFor group free = capacityFor group free' :=
  Packing.total_perm ((h.filter _).map _)

/-- The same instances are asked for, under the same constraints; affinities and spreads may be
others. -/
structure TaskGroup.SameDemand (group group' : TaskGroup) : Prop where
  count : group'.count = group.count
  tasks : group'.tasks = group.tasks
  constraints : group'.constraints = group.constraints

theorem TaskGroup.SameDemand.capacityFor_eq {group' : TaskGroup} (h : group.SameDemand group')
    (free : FreeList) : capacityFor group' free = capacityFor group free := by
  rw [capacityFor, capacityFor, bins, bins, groupDemand, groupDemand, h.tasks]
  simp only [meetsConstraints, h.constraints]

variable (F : Type) [F64 F]

def placeGroups (eval : Evaluation) (s : StateStore) (job : Job) (groups : List TaskGroup) :
    FreeList × Plan := groups.foldl (placeGroup F eval s job) (initialFree s, {})

theorem processEval_eq_placeGroups {s : StateStore} (hj : s.getJob eval.jobId = some job) :
    processEval F eval s = (placeGroups F eval s job job.taskGroups).2 := by
  simp only [processEval, hj, placeGroups]

theorem foldl_placeGroup_append {s : StateStore} (hst : Accounted s st)
    (groups : List TaskGroup) : ∃ as,
      (groups.foldl (placeGroup F eval s job) st).2.allocs = st.2.allocs ++ as := by
  induction groups generalizing st with
  | nil => exact ⟨[], by simp⟩
  | cons g groups ih =>
      obtain ⟨k, _, hsteps, _⟩ := (placeGroup_turn F eval job g s st hst.distinct).fills
      obtain ⟨as, has, _⟩ := placeSteps_append hsteps
      obtain ⟨rest, hrest⟩ := ih (hst.steps hsteps)
      exact ⟨as ++ rest, by rw [List.foldl_cons, hrest, has, List.append_assoc]⟩

/-- A plan is what the groups before a group place, then what its own turn places from what they
leave free, then what the groups after it place. -/
theorem exists_turn {s : StateStore} (hs : s.WellFormed) (hj : s.getJob eval.jobId = some job)
    {before after : List TaskGroup} {group : TaskGroup}
    (hsplit : job.taskGroups = before ++ group :: after) :
    ∃ earlier placed later : List Allocation,
      (processEval F eval s).allocs = earlier ++ placed ++ later ∧
      placeGroups F eval s job before = (remaining s earlier, ⟨earlier⟩) ∧
      (placeGroups F eval s job (before ++ [group])).2.allocs = earlier ++ placed ∧
      Accounted s (remaining s earlier, ⟨earlier⟩) ∧
      Turn F eval s job group (max group.count 0).toNat (remaining s earlier, ⟨earlier⟩)
        (placeGroups F eval s job (before ++ [group])) := by
  obtain ⟨hst, _⟩ := foldl_placeGroup F eval job before (Accounted.initial hs)
  rw [← placeGroups] at hst
  have hbefore : placeGroups F eval s job before =
      (remaining s (placeGroups F eval s job before).2.allocs,
        ⟨(placeGroups F eval s job before).2.allocs⟩) := Prod.ext hst.free_eq rfl
  have hturn := placeGroup_turn F eval job group s _ hst.distinct
  obtain ⟨k, _, hsteps, _⟩ := hturn.fills
  obtain ⟨placed, hplaced, _⟩ := placeSteps_append hsteps
  obtain ⟨later, hlater⟩ := foldl_placeGroup_append F (hst.steps hsteps) after
  have hboth : placeGroups F eval s job (before ++ [group]) =
      placeGroup F eval s job (placeGroups F eval s job before) group := by
    rw [placeGroups, List.foldl_append, List.foldl_cons, List.foldl_nil, ← placeGroups]
  refine ⟨(placeGroups F eval s job before).2.allocs, placed, later, ?_, hbefore, ?_, ?_, ?_⟩
  · rw [processEval_eq_placeGroups F hj, placeGroups, hsplit, List.foldl_append, List.foldl_cons,
      ← placeGroups, hlater, hplaced]
  · rw [hboth, hplaced]
  · exact hbefore ▸ hst
  · rw [hboth, ← hbefore]
    exact hturn

/-- A turn starts with what the store and the groups before it leave free. It places as many
instances as the group asks for and the free capacity allows, and so does any other turn from this
free list, in any order and whatever the scores are. -/
theorem placed_exactly {fsm : Fsm} (h : storeSystem.Reachable fsm) {eval : Evaluation} {job : Job}
    (hj : fsm.state.getJob eval.jobId = some job) {before after : List TaskGroup}
    {group : TaskGroup} (hsplit : job.taskGroups = before ++ group :: after) :
    ∃ earlier placed later : List Allocation,
      (processEval F eval fsm.state).allocs = earlier ++ placed ++ later ∧
      placeGroups F eval fsm.state job before = (remaining fsm.state earlier, ⟨earlier⟩) ∧
      (placeGroups F eval fsm.state job (before ++ [group])).2.allocs = earlier ++ placed ∧
      (placed.length : ℕ∞) = min ((max group.count 0).toNat : ℕ∞)
        (capacityFor group (remaining fsm.state earlier)) ∧
      ∀ (G : Type) [F64 G] (eval' : Evaluation) (state : StateStore) (job' : Job)
        (group' : TaskGroup) (free : FreeList) (plan : Plan),
        group.SameDemand group' → (remaining fsm.state earlier).Perm free →
          (placeGroup G eval' state job' (free, plan) group').2.allocs.length =
            plan.allocs.length + placed.length := by
  have hs := fsm.wellFormed_of_reachable h
  obtain ⟨earlier, placed, later, hall, hbefore, hboth, hst, hturn⟩ := exists_turn F hs hj hsplit
  obtain ⟨as, has, hlen⟩ := hturn.fills.length_eq
  obtain rfl : placed = as := List.append_cancel_left (hboth.symm.trans has)
  refine ⟨earlier, placed, later, hall, hbefore, hboth, hlen, ?_⟩
  intro G _ eval' state job' group' free plan hsame hperm
  have hids : ((free.map Prod.fst).map Node.id).Nodup :=
    ((hperm.map _).map _).nodup_iff.1 hst.distinct
  obtain ⟨as, has, hcount⟩ :=
    (placeGroup_turn G eval' job' group' state (free, plan) hids).fills.length_eq
  rw [hsame.capacityFor_eq, ← capacityFor_perm hperm, hsame.count, ← hlen, Nat.cast_inj] at hcount
  rw [has, List.length_append, hcount]

end Counts

attribute [local instance] Crates.literal in
theorem placed_exactly_web : ∃ group, group ∈ (webJob 3).taskGroups ∧ (2 : ℕ∞) = min 3
    (capacityFor group (remaining (Fsm.registered [oneNode] (webJob 3)).state [])) := by
  have hj : (Fsm.registered [oneNode] (webJob 3)).state.getJob (webEval "eval-1").jobId =
      some (webJob 3) := by decide
  have hsplit : (webJob 3).taskGroups = [] ++ _ :: [] := rfl
  obtain ⟨earlier, placed, later, _, hfirst, hboth, hlen, _⟩ :=
    placed_exactly ℚ (Fsm.registered_reachable [oneNode] (webJob 3)) hj hsplit
  obtain rfl : earlier = [] := congrArg (fun st => st.2.allocs) hfirst.symm
  have hall : (processEval ℚ (webEval "eval-1")
      (Fsm.registered [oneNode] (webJob 3)).state).allocs.length = 2 := by decide
  rw [processEval_eq_placeGroups ℚ hj, hsplit, hboth, List.nil_append] at hall
  rw [hall] at hlen
  exact ⟨_, List.mem_singleton.2 rfl, hlen⟩

end NomadRs
