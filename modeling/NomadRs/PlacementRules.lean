import NomadRs.PlacedCount
import NomadRs.Release

/-!
# Rules that placements do not check

The next instance of a group goes to the entry of the free list that is ahead of all others with
room (`exists_best`). A rule that is not checked, such as the datacenters of a job or
`distinct_hosts`, is obeyed exactly as long as no entry that it forbids is ever ahead of all that it
allows (`processEval_obeys_iff`). What is said of plans holds of `Release.processEval` while the
sums fit.
-/

namespace NomadRs

section Sorting
variable {α : Type*} {cmp : α → α → Ordering}

theorem head_insertionSort [Std.TransCmp cmp] {l : List α} {b : α}
    (h : (l.insertionSort fun a b => cmp a b ≠ .gt).head? = some b) :
    ∀ c ∈ l, cmp b c ≠ .gt := by
  have hle (a b : α) : cmp a b ≠ .gt ↔ (cmp a b).isLE = true := Ordering.isLE_iff_ne_gt.symm
  have : Std.Total fun a b : α => cmp a b ≠ .gt := ⟨fun a b => by
    rw [@Std.OrientedCmp.eq_swap _ cmp _ b a]
    cases cmp a b <;> simp⟩
  have : IsTrans α fun a b => cmp a b ≠ .gt := ⟨fun a b c hab hbc => by
    rw [hle] at *
    exact Std.TransCmp.isLE_trans hab hbc⟩
  intro c hc
  have hsorted := l.pairwise_insertionSort fun a b => cmp a b ≠ .gt
  obtain ⟨rest, hrest⟩ := List.head?_eq_some_iff.1 h
  rw [← List.mem_insertionSort (fun a b => cmp a b ≠ .gt), hrest] at hc
  rw [hrest, List.pairwise_cons] at hsorted
  rcases List.mem_cons.1 hc with rfl | hc
  · simp [Std.ReflCmp.compare_self]
  · exact hsorted.1 c hc

end Sorting

abbrev FreeEntry := (Node × Resources) × ℕ

section Order
variable (F : Type) [F64 F] [Crates] (s : StateStore) (group : TaskGroup)

def entryScore (e : FreeEntry) : F :=
  scoreNode F e.1.1 e.1.2 (groupDemand group) group (bonusFor F group e.1.1 s)

/-- By which of two entries the scheduler tries first: by index, or by score and then index. -/
def entryCmp (e d : FreeEntry) : Ordering :=
  if group.affinities.isEmpty && group.spreads.isEmpty then compare e.2 d.2
  else (F64.totalCmp (entryScore F s group d) (entryScore F s group e)).then (compare e.2 d.2)

def Ahead (e d : FreeEntry) : Prop := entryCmp F s group e d = .lt

instance (e d : FreeEntry) : Decidable (Ahead F s group e d) := inferInstanceAs (Decidable (_ = _))

/-- Whether an entry has room for an instance of the group. -/
def takes (e : FreeEntry) : Bool := hasRoom group (groupDemand group) e.1

variable {F s group} [Std.TransCmp (@F64.totalCmp F _)]

omit [Crates] in
theorem transCmp_byScore {α : Type*} (score : α → F) (order : α → ℕ) : Std.TransCmp fun a b =>
    (F64.totalCmp (score b) (score a)).then (compare (order a) (order b)) := by
  have : Std.TransCmp fun a b => F64.totalCmp (score b) (score a) :=
    { eq_swap := Std.OrientedCmp.eq_swap
      isLE_trans := fun hab hbc => Std.TransCmp.isLE_trans hbc hab }
  exact inferInstanceAs (Std.TransCmp (compareLex
    (fun a b => F64.totalCmp (score b) (score a)) (compareOn order)))

instance transCmp_entryCmp : Std.TransCmp (entryCmp F s group) := by
  unfold entryCmp
  split
  · exact inferInstanceAs (Std.TransCmp (compareOn Prod.snd))
  · exact transCmp_byScore _ _

theorem ahead_total {free : FreeList} {e d : FreeEntry} (he : e ∈ free.zipIdx)
    (hd : d ∈ free.zipIdx) (h : ¬ Ahead F s group e d) : e = d ∨ Ahead F s group d e := by
  cases hcmp : entryCmp F s group e d with
  | lt => exact absurd hcmp h
  | eq =>
      have hidx : e.2 = d.2 := by
        unfold entryCmp at hcmp
        split at hcmp
        · exact compare_eq_iff_eq.1 hcmp
        · exact compare_eq_iff_eq.1 (Ordering.then_eq_eq.1 hcmp).2
      rw [List.mem_zipIdx_iff_getElem?] at he hd
      rw [hidx, hd, Option.some_inj] at he
      exact .inl (Prod.ext he.symm hidx)
  | gt =>
      refine .inr ?_
      rw [Ahead, @Std.OrientedCmp.eq_swap _ (entryCmp F s group), hcmp]
      rfl

variable (F s group) in
/-- An entry with room that no other entry with room is ahead of. -/
structure Best (free : FreeList) (e : FreeEntry) : Prop where
  mem : e ∈ free.zipIdx
  takes : takes group e = true
  first : ∀ d ∈ free.zipIdx, NomadRs.takes group d = true → ¬ Ahead F s group d e

variable {free : FreeList}

theorem exists_best {nodeId : NodeId} (h : choice F s group free = some nodeId) :
    ∃ e, Best F s group free e ∧ e.1.1.id = nodeId := by
  unfold choice at h
  by_cases hfast : (group.affinities.isEmpty && group.spreads.isEmpty) = true
  · rw [if_pos hfast, Option.map_eq_some_iff] at h
    obtain ⟨entry, hfind, rfl⟩ := h
    obtain ⟨hroom, i, hi, rfl, hfirst⟩ := List.find?_eq_some_iff_getElem.1 hfind
    refine ⟨(free[i], i), ⟨List.mk_mem_zipIdx_iff_getElem?.2 (List.getElem?_eq_getElem hi), hroom,
      fun d hd hdroom hahead => ?_⟩, rfl⟩
    rw [Ahead, entryCmp, if_pos hfast, compare_lt_iff_lt] at hahead
    rw [List.mem_zipIdx_iff_getElem?, List.getElem?_eq_some_iff] at hd
    obtain ⟨_, hd⟩ := hd
    have hnone := hfirst d.2 hahead
    rw [hd, Bool.not_eq_true'] at hnone
    exact Bool.false_ne_true (hnone.symm.trans hdroom)
  · rw [if_neg hfast, Option.map_eq_some_iff] at h
    obtain ⟨best, hbest, rfl⟩ := h
    have := transCmp_byScore (F := F) Candidate.score Candidate.order
    have hfirst := head_insertionSort hbest
    have hmem := List.mem_of_mem_head? (Option.mem_def.2 hbest)
    rw [rank, List.mem_insertionSort] at hmem
    obtain ⟨e, he, rfl⟩ := List.mem_map.1 hmem
    obtain ⟨hz, hroom⟩ := List.mem_filter.1 he
    refine ⟨e, ⟨hz, hroom, fun d hd hdroom hahead => ?_⟩, rfl⟩
    refine hfirst _ (List.mem_map_of_mem (List.mem_filter.2 ⟨hd, hdroom⟩)) ?_
    rw [Ahead, entryCmp, if_neg hfast] at hahead
    rw [this.eq_swap]
    exact congrArg Ordering.swap hahead

theorem Best.unique {e d : FreeEntry} (he : Best F s group free e) (hd : Best F s group free d) :
    e = d := by
  rcases ahead_total he.mem hd.mem (hd.first e he.mem he.takes) with heq | hahead
  · exact heq
  · exact absurd hahead (he.first d hd.mem hd.takes)

theorem Best.choice_eq {e : FreeEntry} (he : Best F s group free e) :
    choice F s group free = some e.1.1.id := by
  cases hc : choice F s group free with
  | none =>
      have hfull := (choice_eq_none_iff F).1 hc e.1 (List.fst_mem_of_mem_zipIdx he.mem)
      have hroom : hasRoom group (groupDemand group) e.1 = true := he.takes
      rw [hroom] at hfull
      cases hfull
  | some nodeId =>
      obtain ⟨d, hd, rfl⟩ := exists_best hc
      rw [he.unique hd]

end Order

/-! ## Rules -/

section Rules
variable (F : Type) [F64 F] [Crates] (s : StateStore) (eval : Evaluation) (job : Job)
  (allows : TaskGroup → List Allocation → Node → Bool)

def mayTake (group : TaskGroup) (as : List Allocation) (e : FreeEntry) : Bool :=
  takes group e && allows group as e.1.1

def firstAllowed (group : TaskGroup) (as : List Allocation) : Option FreeEntry :=
  let entries := (remaining s as).zipIdx.filter (mayTake allows group as)
  entries.find? fun e => entries.all fun d => ¬ Ahead F s group d e

def placeAllowed (as : List Allocation) (group : TaskGroup) : List Allocation :=
  match firstAllowed F s allows group as with
  | none => as
  | some e => as ++ [makeAlloc eval ⟨as⟩ job group (groupDemand group) e.1.1.id]

/-- Every entry with room that the rule forbids is behind one that it allows. -/
def ForbiddenBehind (group : TaskGroup) (as : List Allocation) : Prop :=
  ∀ d ∈ (remaining s as).zipIdx, takes group d = true → allows group as d.1.1 = false →
    ∃ e ∈ (remaining s as).zipIdx, mayTake allows group as e = true ∧ Ahead F s group e d

/-- As the instances are placed one after the other as the rule asks, what it forbids never comes
first. -/
def NeverFirst : List TaskGroup → List Allocation → Prop
  | [], _ => True
  | group :: groups, as => ForbiddenBehind F s allows group as ∧
      NeverFirst groups (placeAllowed F s eval job allows as group)

instance (group : TaskGroup) (as : List Allocation) :
    Decidable (ForbiddenBehind F s allows group as) :=
  inferInstanceAs (Decidable (∀ d ∈ (remaining s as).zipIdx, _ → _ → _))

instance decidableNeverFirst : (groups : List TaskGroup) → (as : List Allocation) →
    Decidable (NeverFirst F s eval job allows groups as)
  | [], _ => isTrue trivial
  | _ :: groups, _ =>
    have := decidableNeverFirst groups
    inferInstanceAs (Decidable (_ ∧ _))

variable {F s eval job allows} {group : TaskGroup} {as : List Allocation}

omit [Crates] in
theorem mem_listNodes_of_mem_remaining {e : FreeEntry} (h : e ∈ (remaining s as).zipIdx) :
    e.1.1 ∈ s.listNodes := by
  obtain ⟨node, hnode, heq⟩ := List.mem_map.1 (List.fst_mem_of_mem_zipIdx h)
  rw [← heq]
  exact (List.mem_filter.1 hnode).1

variable [Std.TransCmp (@F64.totalCmp F _)]

/-- The choice obeys the rule if and only if what it forbids is behind what it allows. -/
theorem forbiddenBehind_iff (hs : s.WellFormed) : ForbiddenBehind F s allows group as ↔
    ∀ node ∈ s.listNodes, choice F s group (remaining s as) = some node.id →
      allows group as node = true := by
  constructor
  · intro h node hnode hchoice
    obtain ⟨e, hbest, hid⟩ := exists_best hchoice
    have hsame : e.1.1 = node := by
      have hget := hs.getNode_of_mem (mem_listNodes_of_mem_remaining hbest.mem)
      rw [hid, hs.getNode_of_mem hnode, Option.some_inj] at hget
      exact hget.symm
    by_contra hforbidden
    obtain ⟨e', he', hmay, hahead⟩ := h e hbest.mem hbest.takes (by simpa [hsame] using hforbidden)
    exact hbest.first e' he' (Bool.and_eq_true_iff.1 hmay).1 hahead
  · intro h d hd hroom hforbidden
    cases hchoice : choice F s group (remaining s as) with
    | none =>
        have hnone := (choice_eq_none_iff F).1 hchoice d.1 (List.fst_mem_of_mem_zipIdx hd)
        exact absurd hroom (by simp [takes, hnone])
    | some nodeId =>
        obtain ⟨e, hbest, rfl⟩ := exists_best hchoice
        have hallowed := h e.1.1 (mem_listNodes_of_mem_remaining hbest.mem) hchoice
        refine ⟨e, hbest.mem, Bool.and_eq_true_iff.2 ⟨hbest.takes, hallowed⟩, ?_⟩
        rcases ahead_total hd hbest.mem (hbest.first d hd hroom) with rfl | hahead
        · rw [hallowed] at hforbidden
          cases hforbidden
        · exact hahead

theorem placeAllowed_eq (hs : s.WellFormed) (h : ForbiddenBehind F s allows group as) :
    placeAllowed F s eval job allows as group = placeNext F s eval job as group := by
  cases hchoice : choice F s group (remaining s as) with
  | none =>
      have hfirst : firstAllowed F s allows group as = none := by
        rw [firstAllowed, List.filter_eq_nil_iff.2]
        · rfl
        · intro e he hmay
          have hnone := (choice_eq_none_iff F).1 hchoice e.1 (List.fst_mem_of_mem_zipIdx he)
          simp [mayTake, takes, hnone] at hmay
      rw [placeNext_of_none hchoice, placeAllowed, hfirst]
  | some nodeId =>
      obtain ⟨e, hbest, rfl⟩ := exists_best hchoice
      have hallowed :=
        (forbiddenBehind_iff hs).1 h _ (mem_listNodes_of_mem_remaining hbest.mem) hchoice
      have hmem : e ∈ (remaining s as).zipIdx.filter (mayTake allows group as) :=
        List.mem_filter.2 ⟨hbest.mem, Bool.and_eq_true_iff.2 ⟨hbest.takes, hallowed⟩⟩
      have hfirst : firstAllowed F s allows group as = some e := by
        cases hfind : firstAllowed F s allows group as with
        | none =>
            refine absurd (List.find?_eq_none.1 hfind e hmem) ?_
            rw [not_not, List.all_eq_true]
            intro d hd
            obtain ⟨hd, hmay⟩ := List.mem_filter.1 hd
            simpa using hbest.first d hd (Bool.and_eq_true_iff.1 hmay).1
        | some e' =>
            have hleast := List.find?_some hfind
            obtain ⟨he', hmay⟩ := List.mem_filter.1 (List.mem_of_find?_eq_some hfind)
            rw [List.all_eq_true] at hleast
            rcases ahead_total hbest.mem he' (by simpa using hleast e hmem) with rfl | hahead
            · rfl
            · exact absurd hahead (hbest.first e' he' (Bool.and_eq_true_iff.1 hmay).1)
      rw [placeNext_of_some hchoice, placeAllowed, hfirst]

/-- A property of allocations that every allowed placement keeps and every other one breaks. -/
def Guards (s : StateStore) (eval : Evaluation) (job : Job)
    (allows : TaskGroup → List Allocation → Node → Bool) (Q : List Allocation → Prop) : Prop :=
  ∀ group as, ∀ node ∈ s.listNodes,
    (Q (as ++ [makeAlloc eval ⟨as⟩ job group (groupDemand group) node.id]) ↔
      Q as ∧ allows group as node = true)

theorem Guards.of_foldl {Q : List Allocation → Prop} (hQ : Guards s eval job allows Q)
    {groups : List TaskGroup} (h : Q (groups.foldl (placeNext F s eval job) as)) : Q as := by
  induction groups generalizing as with
  | nil => exact h
  | cons group groups ih =>
      have hnext := ih h
      cases hchoice : choice F s group (remaining s as) with
      | none => rwa [placeNext_of_none hchoice] at hnext
      | some nodeId =>
          obtain ⟨e, hbest, rfl⟩ := exists_best hchoice
          rw [placeNext_of_some hchoice] at hnext
          exact ((hQ group as _ (mem_listNodes_of_mem_remaining hbest.mem)).1 hnext).1

theorem Guards.foldl_iff {Q : List Allocation → Prop} (hQ : Guards s eval job allows Q)
    (hs : s.WellFormed) (groups : List TaskGroup) (has : Q as) :
    Q (groups.foldl (placeNext F s eval job) as) ↔ NeverFirst F s eval job allows groups as := by
  induction groups generalizing as with
  | nil => simp [NeverFirst, has]
  | cons group groups ih =>
      rw [List.foldl_cons, NeverFirst]
      cases hchoice : choice F s group (remaining s as) with
      | none =>
          have hbehind : ForbiddenBehind F s allows group as :=
            (forbiddenBehind_iff hs).2 (by simp [hchoice])
          rw [placeAllowed_eq hs hbehind, placeNext_of_none hchoice, ih has]
          exact (and_iff_right hbehind).symm
      | some nodeId =>
          obtain ⟨e, hbest, rfl⟩ := exists_best hchoice
          have hnode := mem_listNodes_of_mem_remaining hbest.mem
          by_cases hallowed : allows group as e.1.1 = true
          · have hbehind : ForbiddenBehind F s allows group as := by
              refine (forbiddenBehind_iff hs).2 fun node hmem hsame => ?_
              have hget := hs.getNode_of_mem hmem
              rw [← Option.some_inj.1 (hchoice.symm.trans hsame), hs.getNode_of_mem hnode,
                Option.some_inj] at hget
              exact hget ▸ hallowed
            rw [placeAllowed_eq hs hbehind, placeNext_of_some hchoice,
              ih ((hQ group as _ hnode).2 ⟨has, hallowed⟩)]
            exact (and_iff_right hbehind).symm
          · refine iff_of_false (fun hall => ?_) fun ⟨hbehind, _⟩ => ?_
            · have hnext := hQ.of_foldl hall
              rw [placeNext_of_some hchoice] at hnext
              exact hallowed ((hQ group as _ hnode).1 hnext).2
            · exact hallowed ((forbiddenBehind_iff hs).1 hbehind _ hnode hchoice)

variable (F)

/-- A plan obeys a rule if and only if what the rule forbids never comes first. -/
theorem processEval_obeys_iff (hs : s.WellFormed) (hj : s.getJob eval.jobId = some job)
    {Q : List Allocation → Prop} (hQ : Guards s eval job allows Q) (hnil : Q []) :
    Q (processEval F eval s).allocs ↔ NeverFirst F s eval job allows job.wanted [] := by
  rw [processEval_allocs F hs hj]
  exact hQ.foldl_iff hs job.wanted hnil

end Rules

/-! ## The datacenters of a job -/

section Plans
variable (F : Type) [F64 F] [Crates] [Std.TransCmp (@F64.totalCmp F _)]

def inDatacenters (job : Job) (_ : TaskGroup) (_ : List Allocation) (node : Node) : Bool :=
  job.datacenters.contains node.datacenter

/-- All allocations of a plan are in datacenters of the job exactly when no node elsewhere is ever
ahead of all nodes in them. -/
theorem in_datacenters_iff {fsm : Fsm} (h : storeSystem.Reachable fsm) {eval : Evaluation}
    {job : Job} (hj : fsm.state.getJob eval.jobId = some job)
    (hfit : Release.SumsFit job fsm.state) :
    (∀ a ∈ (Release.processEval F eval fsm.state).allocs, ∃ node,
      fsm.state.getNode a.nodeId = some node ∧ node.datacenter ∈ job.datacenters) ↔
      NeverFirst F fsm.state eval job (inDatacenters job) job.wanted [] := by
  have hs := fsm.wellFormed_of_reachable h
  rw [Release.processEval_eq_of_job F hs hj hfit]
  refine processEval_obeys_iff (Q := fun as => ∀ a ∈ as, ∃ node,
    fsm.state.getNode a.nodeId = some node ∧ node.datacenter ∈ job.datacenters) F hs hj ?_ (by simp)
  intro group as node hnode
  have hlast : (∃ n, fsm.state.getNode node.id = some n ∧ n.datacenter ∈ job.datacenters) ↔
      inDatacenters job group as node = true := by
    simp [hs.getNode_of_mem hnode, inDatacenters]
  rw [← hlast]
  exact List.forall_mem_append.trans (and_congr_right fun _ => List.forall_mem_singleton)

end Plans

section Scores
attribute [local instance] Crates.literal

instance transCmp_rat : Std.TransCmp (@F64.totalCmp ℚ _) :=
  inferInstanceAs (Std.TransCmp (compare : ℚ → ℚ → Ordering))

theorem in_datacenters_iff_web : NeverFirst ℚ (Fsm.registered [oneNode] (webJob 1)).state
    (webEval "eval-1") (webJob 1) (inDatacenters (webJob 1)) (webJob 1).wanted [] := by
  refine (in_datacenters_iff ℚ (Fsm.registered_reachable [oneNode] (webJob 1)) rfl (by decide)).1 ?_
  have hnode : ∀ a ∈ (Release.processEval ℚ (webEval "eval-1")
      (Fsm.registered [oneNode] (webJob 1)).state).allocs, a.nodeId = "node-1" := by decide +kernel
  exact fun a ha => ⟨oneNode, hnode a ha ▸ rfl, by decide⟩

def foreignNode : Node := { oneNode with datacenter := "dc2" }

theorem placed_elsewhere : ¬ ∀ (fsm : Fsm) (eval : Evaluation) (job : Job),
    storeSystem.Reachable fsm → fsm.state.getJob eval.jobId = some job →
      ∀ a ∈ (Release.processEval ℚ eval fsm.state).allocs, ∃ node,
        fsm.state.getNode a.nodeId = some node ∧ node.datacenter ∈ job.datacenters := by
  intro h
  have hnode : ∀ a ∈ (Release.processEval ℚ (webEval "eval-1")
      (Fsm.registered [foreignNode] (webJob 1)).state).allocs, a.nodeId = "node-1" := by
    decide +kernel
  obtain ⟨a, ha⟩ := List.exists_mem_of_ne_nil (Release.processEval ℚ (webEval "eval-1")
    (Fsm.registered [foreignNode] (webJob 1)).state).allocs (by decide +kernel)
  obtain ⟨node, hget, hdc⟩ := h _ _ (webJob 1)
    (Fsm.registered_reachable [foreignNode] (webJob 1)) rfl a ha
  rw [hnode a ha] at hget
  obtain rfl : foreignNode = node := Option.some_inj.1 hget
  revert hdc
  decide

end Scores

/-! ## Distinct hosts -/

section Plans
variable (F : Type) [F64 F] [Crates] [Std.TransCmp (@F64.totalCmp F _)]

/-- Whether none of the allocations from position `first` on is on the node. -/
def onOtherHosts (first : ℕ) (_ : TaskGroup) (as : List Allocation) (node : Node) : Bool :=
  !((as.drop first).map Allocation.nodeId).contains node.id

omit [F64 F] [Crates] [Std.TransCmp (@F64.totalCmp F _)] in
theorem guards_onOtherHosts (s : StateStore) (eval : Evaluation) (job : Job) (first : ℕ) :
    Guards s eval job (onOtherHosts first) fun as =>
      ((as.drop first).map Allocation.nodeId).Nodup := by
  intro group as node _
  change ((List.drop first (as ++ [_])).map Allocation.nodeId).Nodup ↔ _
  rcases le_or_gt first as.length with hlen | hlen
  · rw [List.drop_append_of_le_length hlen, List.map_append, List.nodup_append']
    simp [onOtherHosts, makeAlloc]
  · rw [List.drop_eq_nil_of_le (by simpa using hlen)]
    simp [onOtherHosts, List.drop_eq_nil_of_le hlen.le]

/-- The allocations of a group are on distinct nodes exactly when no node that has one is ever ahead
of all nodes that have none. -/
theorem distinct_hosts_iff {fsm : Fsm} (h : storeSystem.Reachable fsm) {eval : Evaluation}
    {job : Job} (hj : fsm.state.getJob eval.jobId = some job)
    (hfit : Release.SumsFit job fsm.state) {before after : List TaskGroup} {group : TaskGroup}
    (hsplit : job.taskGroups = before ++ group :: after) :
    ∃ earlier placed later : List Allocation,
      (Release.processEval F eval fsm.state).allocs = earlier ++ placed ++ later ∧
      (Release.placeGroups F eval fsm.state job before).2.allocs = earlier ∧
      (Release.placeGroups F eval fsm.state job (before ++ [group])).2.allocs =
        earlier ++ placed ∧
      ((placed.map Allocation.nodeId).Nodup ↔
        NeverFirst F fsm.state eval job (onOtherHosts earlier.length)
          (List.replicate (max group.count 0).toNat group) earlier) := by
  have hs := fsm.wellFormed_of_reachable h
  have hbefore : before ⊆ job.taskGroups := hsplit ▸ List.subset_append_left _ _
  have hturns : before ++ [group] ⊆ job.taskGroups := by
    rw [hsplit, List.append_cons before group after]
    exact List.subset_append_left _ _
  obtain ⟨earlier, placed, later, hall, hfirst, hboth, hst, hturn⟩ := exists_turn F hs hj hsplit
  rw [Release.processEval_eq_of_job F hs hj hfit, Release.placeGroups_eq F hs hj hfit hbefore,
    Release.placeGroups_eq F hs hj hfit hturns, ← placeGroups, ← placeGroups]
  refine ⟨earlier, placed, later, hall, by rw [hfirst], hboth, ?_⟩
  have hnil : ((earlier.drop earlier.length).map Allocation.nodeId).Nodup := by simp
  have hiff := (guards_onOtherHosts fsm.state eval job earlier.length).foldl_iff (F := F) hs
    (List.replicate (max group.count 0).toNat group) hnil
  have hallocs := hturn.allocs_eq hst
  rw [hboth] at hallocs
  simpa [← hallocs] using hiff

end Plans

section Scores
attribute [local instance] Crates.literal

/-- A job whose instances are to be on distinct hosts. -/
def apartJob (count : Int) : Job :=
  { webJob count with
    taskGroups := (webJob count).taskGroups.map fun g =>
      { g with constraints := [⟨"node.unique.id", "", "distinct_hosts"⟩] } }

theorem distinct_hosts_iff_once : ∃ group, (apartJob 1).taskGroups = [group] ∧
    NeverFirst ℚ (Fsm.registered [oneNode] (apartJob 1)).state (webEval "eval-1") (apartJob 1)
      (onOtherHosts 0) [group] [] := by
  have hj : (Fsm.registered [oneNode] (apartJob 1)).state.getJob (webEval "eval-1").jobId =
      some (apartJob 1) := rfl
  have hsplit : (apartJob 1).taskGroups = [] ++ _ :: [] := rfl
  obtain ⟨earlier, placed, later, hall, hfirst, _, hiff⟩ :=
    distinct_hosts_iff ℚ (Fsm.registered_reachable [oneNode] (apartJob 1)) hj (by decide)
      hsplit
  obtain rfl : earlier = [] := hfirst.symm
  have hlen : (Release.processEval ℚ (webEval "eval-1")
      (Fsm.registered [oneNode] (apartJob 1)).state).allocs.length = 1 := by decide +kernel
  refine ⟨_, rfl, hiff.1 ?_⟩
  cases placed with
  | nil => exact List.nodup_nil
  | cons a placed =>
      rw [hall] at hlen
      obtain rfl : placed = [] := by
        rw [← List.length_eq_zero_iff]
        simp only [List.nil_append, List.cons_append, List.length_cons, List.length_append] at hlen
        omega
      exact List.nodup_singleton _

/-- Two instances are put on the only node. -/
theorem hosts_shared : ¬ ∀ (fsm : Fsm) (eval : Evaluation) (job : Job)
    (before after : List TaskGroup) (group : TaskGroup), storeSystem.Reachable fsm →
      fsm.state.getJob eval.jobId = some job → job.taskGroups = before ++ group :: after →
      (∃ c ∈ group.constraints, c.operand = "distinct_hosts" ∧ c.validate = .ok ()) →
      ∃ earlier placed later : List Allocation,
        (Release.processEval ℚ eval fsm.state).allocs = earlier ++ placed ++ later ∧
        (Release.placeGroups ℚ eval fsm.state job before).2.allocs = earlier ∧
        (Release.placeGroups ℚ eval fsm.state job (before ++ [group])).2.allocs =
          earlier ++ placed ∧
        (placed.map Allocation.nodeId).Nodup := by
  intro h
  obtain ⟨earlier, placed, _, _, hfirst, hboth, hnodup⟩ := h _ (webEval "eval-1") (apartJob 2)
    [] [] _ (Fsm.registered_reachable [oneNode] (apartJob 2)) rfl rfl (by decide)
  obtain rfl : earlier = [] := hfirst.symm
  rw [List.nil_append] at hboth
  subst hboth
  revert hnodup
  decide +kernel

end Scores
end NomadRs
