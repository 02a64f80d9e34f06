import NomadRs.PlanSound
import NomadRs.Retry

/-!
# A drain settles what it can

Placements only take capacity, so an evaluation that gets nothing at its turn in a drain would get
nothing at the end of it either. After one round of retrying everything that is blocked there is no
point in another one: it places nothing and leaves the same evaluations blocked, in the same order
(`drain_settles`). Evaluations that have placed before are left out: delivered again, they may move
their allocations and so free a node.
-/

namespace NomadRs

section Runs
variable {F : Type} [F64 F] [Crates] {s s' : StateStore} {eval : Evaluation} {job : Job}
  {group : TaskGroup}

omit [Crates] in
theorem Job.mem_wanted : group ∈ job.wanted ↔ group ∈ job.taskGroups ∧ 0 < group.count := by
  rw [Job.wanted, List.mem_flatMap]
  constructor
  · rintro ⟨g, hg, hmem⟩
    obtain ⟨hcount, rfl⟩ := List.mem_replicate.1 hmem
    exact ⟨hg, by omega⟩
  · rintro ⟨hg, hcount⟩
    exact ⟨group, hg, List.mem_replicate.2 ⟨by omega, rfl⟩⟩

/-! ## Evaluations with nothing to gain -/

def RoomFor (s : StateStore) (job : Job) : Prop :=
  ∃ group ∈ job.taskGroups, 0 < group.count ∧ ∃ node ∈ s.listNodes, nodeEligible node = true ∧
    hasRoom group (groupDemand group) (node, freeCapacity node s) = true

/-- An evaluation gets a placement exactly if some node has room for an instance. -/
theorem processEval_ne_nil_iff (hs : s.WellFormed) (hj : s.getJob eval.jobId = some job) :
    (processEval F eval s).allocs ≠ [] ↔ RoomFor s job := by
  constructor
  · intro hne
    obtain ⟨a, ha⟩ := List.exists_mem_of_ne_nil _ hne
    rw [processEval_allocs F hs hj] at ha
    rcases mem_foldl_placeNext.1 ha with hnil | ⟨before, group, after, hsplit, nodeId, hchoice, _⟩
    · cases hnil
    have hwanted : group ∈ job.wanted := hsplit ▸ List.mem_append_right _ List.mem_cons_self
    obtain ⟨hg, hcount⟩ := Job.mem_wanted.1 hwanted
    obtain ⟨as, has⟩ : ∃ as, as = before.foldl (placeNext F s eval job) [] := ⟨_, rfl⟩
    rw [← has] at hchoice
    have hpos : ∀ b ∈ as, 0 ≤ b.resources := by
      intro b hb
      have hplanned : b ∈ (processEval F eval s).allocs := by
        rw [processEval_allocs F hs hj, hsplit, List.foldl_append, ← has]
        exact mem_foldl_placeNext.2 (.inl hb)
      exact processEval_nonneg F hs b hplanned
    have hsome : ¬ ∀ e ∈ remaining s as, hasRoom group (groupDemand group) e = false := by
      intro hnone
      rw [(choice_eq_none_iff F).2 hnone] at hchoice
      cases hchoice
    push Not at hsome
    obtain ⟨e, he, hroom⟩ := hsome
    obtain ⟨node, hnode, rfl⟩ := List.mem_map.1 he
    obtain ⟨hstored, helig⟩ := List.mem_filter.1 hnode
    refine ⟨group, hg, hcount, node, hstored, helig, ?_⟩
    rw [ne_eq, Bool.not_eq_false, hasRoom, Bool.and_eq_true, fits_iff] at hroom
    rw [hasRoom, Bool.and_eq_true, fits_iff]
    exact ⟨hroom.1.trans (sub_le_self _ (planUsage_nonneg hpos _)), hroom.2⟩
  · rintro ⟨group, hg, hcount, node, hnode, helig, hroom⟩
    exact processEval_ne_nil hs hj hg hcount hnode helig hroom

omit F [F64 F] in
theorem RoomFor.mono (h : RoomFor s' job) (hnodes : s'.nodes = s.nodes)
    (hfree : ∀ node, freeCapacity node s' ≤ freeCapacity node s) : RoomFor s job := by
  obtain ⟨group, hg, hcount, node, hnode, helig, hroom⟩ := h
  refine ⟨group, hg, hcount, node, ?_, helig, ?_⟩
  · rwa [StateStore.listNodes, ← hnodes]
  · rw [hasRoom, Bool.and_eq_true, fits_iff] at hroom ⊢
    exact ⟨hroom.1.trans (hfree node), hroom.2⟩

theorem processEval_eq_nil_of_le (hs : s.WellFormed) (hs' : s'.WellFormed)
    (hjobs : s'.jobs = s.jobs) (hnodes : s'.nodes = s.nodes)
    (hfree : ∀ node, freeCapacity node s' ≤ freeCapacity node s)
    (hempty : (processEval F eval s).allocs = []) : (processEval F eval s').allocs = [] := by
  cases hj : s'.getJob eval.jobId with
  | none => exact processEval_of_no_job F hj
  | some job =>
      have hj' : s.getJob eval.jobId = some job := by
        rwa [StateStore.getJob, ← hjobs]
      by_contra hne
      have hroom := (processEval_ne_nil_iff (F := F) hs' hj).1 hne
      exact (processEval_ne_nil_iff (F := F) hs hj').2 (hroom.mono hnodes hfree) hempty

/-! ## Evaluations that have not placed yet -/

omit F [F64 F] [Crates] in
def Unplaced (s : StateStore) (id : EvalId) : Prop := ∀ i : ℕ, s.getAlloc s!"{id}-{i}" = none

theorem Unplaced.fresh (h : Unplaced s eval.id) (hs : s.WellFormed) :
    ∀ a ∈ (processEval F eval s).allocs, s.getAlloc a.id = none := by
  intro a ha
  obtain ⟨i, hi⟩ := List.mem_iff_getElem?.1 ha
  rw [processEval_numbered F hs eval i a hi]
  exact h i

theorem Unplaced.commitAll {id : EvalId} (h : Unplaced s id) (hs : s.WellFormed)
    (hid : id ≠ eval.id) : Unplaced (s.commitAll (processEval F eval s).allocs) id := by
  intro i
  rw [StateStore.getAlloc_commitAll_of_notMem fun a ha heq => ?_]
  · exact h i
  · obtain ⟨j, hj⟩ := List.mem_iff_getElem?.1 ha
    rw [processEval_numbered F hs eval j a hj] at heq
    exact hid (NumberedName.stem_eq heq).symm

/-- The plan of an evaluation that has not placed yet takes capacity, or leaves it as it is. -/
theorem Unplaced.freeCapacity_le (h : Unplaced s eval.id) (hs : s.WellFormed) (node : Node) :
    freeCapacity node (s.commitAll (processEval F eval s).allocs) ≤ freeCapacity node s := by
  have hids := (processEval_numbered F hs eval).nodup
  rw [freeCapacity_eq, freeCapacity_eq, usage_commitAll_of_fresh hids (h.fresh hs)]
  exact sub_le_sub_left (le_add_of_nonneg_right (planUsage_nonneg (processEval_nonneg F hs) _)) _

/-- In a drain of evaluations that have not placed yet the capacity only goes down. -/
theorem freeCapacity_planned_le {evals : List Evaluation} (hs : s.WellFormed)
    (hids : (evals.map Evaluation.id).Nodup) (hnew : ∀ eval ∈ evals, Unplaced s eval.id)
    (node : Node) :
    freeCapacity node (s.commitAll ((planned F evals s).flatMap fun p => p.2.allocs)) ≤
      freeCapacity node s := by
  induction evals generalizing s with
  | nil => simp [planned]
  | cons eval evals ih =>
      obtain ⟨hid, hids⟩ := List.nodup_cons.1 hids
      obtain ⟨hfirst, hnew⟩ := List.forall_mem_cons.1 hnew
      have hnew' : ∀ e ∈ evals, Unplaced (s.commitAll (processEval F eval s).allocs) e.id := by
        intro e he
        exact (hnew e he).commitAll hs fun heq => hid (heq ▸ List.mem_map_of_mem he)
      rw [planned, List.flatMap_cons, StateStore.commitAll_append]
      exact (ih (hs.commitAll (processEval_valid F hs)) hids hnew').trans
        (hfirst.freeCapacity_le hs node)

theorem processEval_planned_eq_nil {evals : List Evaluation} (hs : s.WellFormed)
    (hids : (evals.map Evaluation.id).Nodup) (hnew : ∀ eval ∈ evals, Unplaced s eval.id) :
    ∀ p ∈ planned F evals s, p.2.allocs = [] → (processEval F p.1
      (s.commitAll ((planned F evals s).flatMap fun p => p.2.allocs))).allocs = [] := by
  induction evals generalizing s with
  | nil => simp [planned]
  | cons eval evals ih =>
      have hall := freeCapacity_planned_le (F := F) hs hids hnew
      have hvalid := planned_valid (F := F) hs (eval :: evals)
      obtain ⟨hid, hids⟩ := List.nodup_cons.1 hids
      obtain ⟨_, hnew⟩ := List.forall_mem_cons.1 hnew
      have hnew' : ∀ e ∈ evals, Unplaced (s.commitAll (processEval F eval s).allocs) e.id := by
        intro e he
        exact (hnew e he).commitAll hs fun heq => hid (heq ▸ List.mem_map_of_mem he)
      have hrest := ih (hs.commitAll (processEval_valid F hs)) hids hnew'
      intro p hp hempty
      rcases List.mem_cons.1 hp with rfl | hp
      · exact processEval_eq_nil_of_le hs (hs.commitAll fun a ha => (hvalid a ha).1)
          (StateStore.commitAll_jobs _ _) (StateStore.commitAll_nodes _ _) hall hempty
      · rw [planned, List.flatMap_cons, StateStore.commitAll_append]
        exact hrest p hp hempty

theorem planned_eq_of_nil {evals : List Evaluation}
    (h : ∀ eval ∈ evals, (processEval F eval s).allocs = []) :
    planned F evals s = evals.map fun eval => (eval, processEval F eval s) := by
  induction evals with
  | nil => rfl
  | cons eval evals ih =>
      obtain ⟨hfirst, hrest⟩ := List.forall_mem_cons.1 h
      rw [planned, hfirst, StateStore.commitAll_nil, ih hrest, List.map_cons]

/-! ## The queue of a drain -/

theorem drainLoop_reachable {clock : ℕ → Instant} {placed : ℕ} {queue : EvalQueue} {fsm : Fsm}
    (hq : queueSystem.Reachable queue) :
    queueSystem.Reachable (drainLoop F clock placed queue fsm).queue := by
  have hdequeue (q q' : EvalQueue) (hq : queueSystem.Reachable q) (now : Instant)
      (e : Option Evaluation) (h : q.dequeue now = (e, q')) : queueSystem.Reachable q' := by
    have hnext := hq.next (QueueStep.dequeue now)
    rwa [h] at hnext
  fun_induction drainLoop F clock placed queue fsm with
  | case1 placed queue fsm queue' hdeq => exact hdequeue _ _ hq _ _ hdeq
  | case2 placed queue fsm e queue' hdeq plan fsm' hproc parked rest ih =>
      have hparked : queueSystem.Reachable parked := by
        unfold parked
        split
        · exact (hdequeue _ _ hq _ _ hdeq).next (.block e)
        · exact hdequeue _ _ hq _ _ hdeq
      exact ih (hparked.next (.ack e.id))
  | case3 placed queue fsm e queue' hdeq err fsm' hproc =>
      exact (hdequeue _ _ hq _ _ hdeq).next (.nack e.id)

omit F [F64 F] [Crates] in
theorem EvalQueue.held_unblockAll (q : EvalQueue) : q.held.Perm q.unblockAll.2.held := by
  have hheld (q : EvalQueue) : q.held =
      q.pending.map Evaluation.id ++ q.inFlight.keys ++ q.blocked.map Evaluation.id := by
    rw [EvalQueue.pending, List.map_map]
    rfl
  have hunblocks := q.unblocks_unblockAll
  have hpending := hunblocks.pending.map Evaluation.id
  rw [hheld, hheld, hunblocks.inFlight, hunblocks.blocked, List.map_nil, List.append_nil]
  rw [List.map_append] at hpending
  refine List.Perm.trans ?_ (hpending.symm.append_right _)
  rw [List.append_assoc, List.append_assoc]
  exact List.perm_append_comm.append_left _

omit F [F64 F] [Crates] in
/-- Unblocked evaluations wait behind those that are pending. -/
theorem EvalQueue.waiting_unblockAll {q : EvalQueue} (hq : queueSystem.Reachable q) :
    q.unblockAll.2.waiting = q.waiting ++ q.blocked := by
  obtain ⟨b, pend, hrep⟩ := Represents.of_reachable hq
  have hempty : Represents { q with blocked := [] } { b with blocked := [] } pend :=
    ⟨hrep.stamped, hrep.fresh, hrep.pending, hrep.inFlight, rfl⟩
  obtain ⟨pend', hrep'⟩ := hempty.foldl_push q.blocked
  have hwaiting : q.unblockAll.2.waiting = pend'.map PendingEval.eval := hrep'.waiting_eq
  have hitems := congrArg (List.map Item.eval) hrep'.pending
  rw [hrep.pending, List.map_append] at hitems
  simp only [List.map_map] at hitems
  rw [hwaiting, hrep.waiting_eq]
  refine Eq.trans hitems.symm ?_
  simp [Function.comp_def, PendingEval.item]

/-! ## Two rounds -/

variable (F) in
def retryAll (clock : ℕ → Instant) (q : EvalQueue) (fsm : Fsm) : Drained :=
  drainQueue F clock q.unblockAll.2 fsm

variable (F) in
/-- Nothing is pending, and what is blocked wants placements and would get none. -/
structure Settled (q : EvalQueue) (s : StateStore) : Prop where
  heap : q.heap = []
  ordered : q.blocked.Pairwise fun a b => b.priority ≤ a.priority
  wants : ∀ eval ∈ q.blocked, 0 < desiredCount eval s
  gets : ∀ eval ∈ q.blocked, (processEval F eval s).allocs = []

theorem settled_retryAll (clock : ℕ → Instant) {fsm : Fsm} {q : EvalQueue}
    (hs : fsm.state.WellFormed) (hids : q.held.Nodup)
    (hnew : ∀ id ∈ q.held, Unplaced fsm.state id) :
    let first := retryAll F clock q fsm
    first.fsm.state.WellFormed ∧ first.queue.held.Nodup ∧
      Settled F first.queue first.fsm.state := by
  obtain ⟨pes, hperm, hsorted, plans, hplans, hdrain⟩ := drainLoop_eq (F := F) clock 0 hs
    (EvalQueue.lookup_unblockAll hids)
  have hheld : (pes.map (fun pe => pe.eval.id) ++ q.unblockAll.2.inFlight.keys).Nodup := by
    refine ((hperm.map _).append_right _).nodup_iff.2 ?_
    exact (List.nodup_append'.1 (q.held_unblockAll.nodup_iff.1 hids)).1
  have hpes : ∀ pe ∈ pes, pe.eval.id ∈ q.held := by
    intro pe hpe
    refine q.held_unblockAll.mem_iff.2 (List.mem_append_left _ (List.mem_append_left _ ?_))
    exact List.mem_map_of_mem (f := fun pe => pe.eval.id) (hperm.mem_iff.1 hpe)
  obtain ⟨blocked, hblocked⟩ : ∃ blocked, blocked =
    (plans.filter fun p => parks p.1 p.2 fsm.state).map Prod.fst := ⟨_, rfl⟩
  have hsub : blocked.Sublist (pes.map PendingEval.eval) := by
    rw [← map_fst_planned F (pes.map PendingEval.eval) fsm.state, ← hplans, hblocked]
    exact List.filter_sublist.map _
  have hparked : ∀ eval ∈ blocked, ∃ p ∈ plans, p.1 = eval ∧ p.2.allocs = [] ∧
      0 < desiredCount eval fsm.state := by
    intro eval heval
    rw [hblocked] at heval
    obtain ⟨p, hp, rfl⟩ := List.mem_map.1 heval
    obtain ⟨hp, hparks⟩ := List.mem_filter.1 hp
    rw [parks, Bool.and_eq_true, List.isEmpty_iff, decide_eq_true_eq] at hparks
    exact ⟨p, hp, rfl, hparks⟩
  rw [retryAll, drainQueue, hdrain, q.blocked_unblockAll, List.nil_append, ← hblocked]
  refine ⟨?_, ?_, rfl, ?_, fun eval heval => ?_, fun eval heval => ?_⟩
  · rw [hplans]
    exact hs.commitAll fun a ha => (planned_valid hs _ a ha).1
  · have hblockedIds : (blocked.map Evaluation.id).Sublist (pes.map fun pe => pe.eval.id) := by
      have hmap := hsub.map Evaluation.id
      rwa [List.map_map] at hmap
    exact ((hheld.sublist (hblockedIds.append_right _)).perm List.perm_append_comm)
  · refine List.Pairwise.sublist hsub (List.pairwise_map.2 (hsorted.imp fun hge => ?_))
    rw [PendingEval.cmp_eq_stampCmp, StableQueue.stampCmp_isGE] at hge
    exact hge.elim le_of_lt fun h => h.1.le
  · obtain ⟨_, _, _, _, hwants⟩ := hparked eval heval
    rwa [desiredCount_congr (StateStore.commitAll_jobs _ _)]
  · obtain ⟨p, hp, rfl, hempty, _⟩ := hparked eval heval
    rw [hplans] at hp ⊢
    refine processEval_planned_eq_nil hs ?_ (fun e he => ?_) p hp hempty
    · rw [List.map_map]
      exact (List.nodup_append'.1 hheld).1
    · obtain ⟨pe, hpe, rfl⟩ := List.mem_map.1 he
      exact hnew _ (hpes pe hpe)

/-- A round on a settled queue. -/
theorem Settled.retryAll_eq {fsm : Fsm} {q : EvalQueue} (h : Settled F q fsm.state)
    (hs : fsm.state.WellFormed) (hq : queueSystem.Reachable q) (hids : q.held.Nodup)
    (clock : ℕ → Instant) :
    (retryAll F clock q fsm).result = .ok 0 ∧ (retryAll F clock q fsm).fsm = fsm ∧
      (retryAll F clock q fsm).queue = { q with nextSeq := q.nextSeq + q.blocked.length } := by
  obtain ⟨pes, hperm, hsorted, plans, hplans, hdrain⟩ := drainLoop_eq (F := F) clock 0 hs
    (EvalQueue.lookup_unblockAll hids)
  have hwaiting : q.unblockAll.2.waiting = q.blocked := by
    rw [EvalQueue.waiting_unblockAll hq, EvalQueue.waiting, h.heap]
    rfl
  have hdrains := EvalQueue.drains_waiting (hq.next .unblockAll) hperm hsorted
  rw [hwaiting] at hdrains
  obtain hevals : pes.map PendingEval.eval = q.blocked :=
    hdrains.unique (StableQueue.Drains.of_pairwise h.ordered)
  rw [hevals, planned_eq_of_nil h.gets] at hplans
  have hnone : plans.flatMap (fun p => p.2.allocs) = [] := by
    rw [hplans, List.flatMap_map]
    exact List.flatMap_eq_nil_iff.2 h.gets
  have hcount : (plans.map fun p => p.2.allocs.length).sum = 0 := by
    rw [← List.length_flatMap, hnone, List.length_nil]
  have hparks : (plans.filter fun p => parks p.1 p.2 fsm.state).map Prod.fst = q.blocked := by
    rw [hplans, List.filter_eq_self.2]
    · rw [List.map_map]
      exact List.map_id _
    · intro p hp
      obtain ⟨eval, heval, rfl⟩ := List.mem_map.1 hp
      exact parks_of_empty rfl (h.gets eval heval) (h.wants eval heval)
  rw [retryAll, drainQueue, hdrain, hnone, hcount, hparks]
  refine ⟨rfl, rfl, ?_⟩
  obtain ⟨_, hfold, _⟩ := EvalQueue.foldl_push q.blocked { q with blocked := [] }
  rw [EvalQueue.unblockAll, hfold, h.heap]
  rfl

/-- If nothing that is held has placed before, then after one round of retries another round places
nothing, changes nothing that is stored, and leaves the same evaluations blocked in their order. -/
theorem drain_settles (clock clock' : ℕ → Instant) {fsm : Fsm} {q : EvalQueue}
    (hfsm : storeSystem.Reachable fsm) (hq : queueSystem.Reachable q) (hids : q.held.Nodup)
    (hnew : ∀ id ∈ q.held, Unplaced fsm.state id) :
    let first := retryAll F clock q fsm
    let second := retryAll F clock' first.queue first.fsm
    second.result = .ok 0 ∧ second.fsm = first.fsm ∧ second.queue = { first.queue with
      nextSeq := first.queue.nextSeq + first.queue.blocked.length } := by
  have hs := fsm.wellFormed_of_reachable hfsm
  obtain ⟨hs', hids', hsettled⟩ := settled_retryAll (F := F) clock hs hids hnew
  exact hsettled.retryAll_eq hs' (drainLoop_reachable (hq.next .unblockAll)) hids' clock'

end Runs

section Runs
attribute [local instance] Crates.literal

theorem drain_settles_web : ∃ first : Drained,
    first.queue.blocked = [webEval "eval-2"] ∧ first.placements.length = 2 ∧
      (retryAll ℚ (fun _ => 0) first.queue first.fsm).fsm = first.fsm := by
  have hone : queueSystem.Reachable (EvalQueue.new.enqueue (webEval "eval-1")) :=
    .next (.start rfl) (.enqueue _)
  have htwo := hone.next (QueueStep.enqueue (webEval "eval-2"))
  obtain ⟨_, hfsm, _⟩ := drain_settles (F := ℚ) (fun _ => 0) (fun _ => 0)
    (Fsm.registered_reachable [oneNode] (webJob 2)) htwo (by decide) fun _ _ _ => rfl
  exact ⟨_, by decide +kernel, by decide +kernel, hfsm⟩

end Runs
end NomadRs
