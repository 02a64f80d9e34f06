import NomadRs.ReleaseServer

/-!
# Plans computed from a released snapshot

A worker computes its plan under one lock of the raft node and commits it under another, without
looking at the nodes again. `commitsSafely` checks a commit allocation by allocation: its node must
be placeable in the state being committed to, and hold everything live on it afterwards. This
needs every step in the gap to leave room for the plans that wait (`KeepsRoom`), and plans whose
sums fit (`SumsFit`); then every commit of every run is safe (`commit_safe`), while in a run of
`stale_plan_commits` a drain slips into the gap.
-/

namespace NomadRs

/-- The node of `a` is placeable and holds what is live on it once `a` is committed. -/
def placedWell (before after : StateStore) (a : Allocation) : Bool :=
  (before.getNode a.nodeId).any fun node =>
    nodeEligible node && decide (usage after a.nodeId ≤ node.resources)

/-- Every allocation that `commitPlan` commits is placed well at that moment. -/
def commitsSafely (raft : RaftNode) : List Allocation → Bool
  | [] => true
  | a :: allocs =>
    match raft.propose (.upsertAlloc a) with
    | (.error _, _) => true
    | (.ok _, raft') => placedWell raft.state raft'.state a && commitsSafely raft' allocs

/-- The plan's nodes are placeable and hold the plan beside what is live on them. -/
structure PlanFits (s : StateStore) (allocs : List Allocation) : Prop where
  nonneg : ∀ a ∈ allocs, 0 ≤ a.resources
  covered : ∀ a ∈ allocs, ∃ node, s.getNode a.nodeId = some node ∧ nodeEligible node = true ∧
    usage s a.nodeId + planUsage a.nodeId allocs ≤ node.resources

theorem usage_applied_le {s : StateStore} (hs : ∀ a ∈ s.listAllocs, 0 ≤ a.resources)
    {a : Allocation} (ha : 0 ≤ a.resources) (id : NodeId) :
    usage (s.applied (.upsertAlloc a)) id ≤ charge id a + usage s id := by
  have h := usage_commitAll_le hs (List.forall_mem_singleton.2 ha) id
  rw [planUsage, List.map_singleton, List.sum_singleton] at h
  exact h

theorem PlanFits.commitsSafely {raft : RaftNode} {allocs : List Allocation}
    (hs : ∀ a ∈ raft.state.listAllocs, 0 ≤ a.resources) (h : PlanFits raft.state allocs) :
    commitsSafely raft allocs = true := by
  induction allocs generalizing raft with
  | nil => rfl
  | cons a allocs ih =>
      rw [NomadRs.commitsSafely]
      rcases raft.propose_cases (.upsertAlloc a) with ⟨_, _, hp⟩ | ⟨_, e, hp⟩
      · simp only [hp, Bool.and_eq_true]
        obtain ⟨ha, hpos⟩ := List.forall_mem_cons.1 h.nonneg
        have hgrowth (id : NodeId) := usage_applied_le hs ha id
        have hsplit (id : NodeId) :
            planUsage id (a :: allocs) = charge id a + planUsage id allocs := List.sum_cons
        constructor
        · obtain ⟨node, hnode, helig, hle⟩ := h.covered a List.mem_cons_self
          rw [placedWell, hnode, Option.any_some, helig, Bool.true_and, decide_eq_true_eq]
          rw [hsplit, ← add_assoc] at hle
          calc
            usage (raft.state.applied (.upsertAlloc a)) a.nodeId
              ≤ charge a.nodeId a + usage raft.state a.nodeId := hgrowth _
            _ = usage raft.state a.nodeId + charge a.nodeId a := add_comm _ _
            _ ≤ _ := le_add_of_nonneg_right (planUsage_nonneg hpos _)
            _ ≤ node.resources := hle
        · refine ih ?_ ⟨hpos, fun b hb => ?_⟩
          · intro b hb
            rcases HashMap.mem_values_insert hb with rfl | hb
            · exact ha
            · exact hs b hb
          · obtain ⟨node, hnode, helig, hle⟩ := h.covered b (List.mem_cons_of_mem _ hb)
            refine ⟨node, hnode, helig, le_trans ?_ hle⟩
            rw [hsplit, ← add_assoc, add_comm (usage raft.state b.nodeId)]
            gcongr
            exact hgrowth _
      · simp only [hp]

theorem PlanFits.congr {s s' : StateStore} {allocs : List Allocation} (h : PlanFits s allocs)
    (hnode : ∀ id, s'.getNode id = s.getNode id) (husage : ∀ id, usage s' id = usage s id) :
    PlanFits s' allocs := by
  refine ⟨h.nonneg, fun a ha => ?_⟩
  rw [hnode, husage]
  exact h.covered a ha

theorem PlanFits.upsertNode {s : StateStore} {allocs : List Allocation} (h : PlanFits s allocs)
    {node : Node} (hroom : (∃ a ∈ allocs, a.nodeId = node.id) → nodeEligible node = true ∧
      usage s node.id + planUsage node.id allocs ≤ node.resources) :
    PlanFits (s.applied (.upsertNode node)) allocs := by
  refine ⟨h.nonneg, fun a ha => ?_⟩
  obtain ⟨old, hold, helig, hle⟩ := h.covered a ha
  by_cases hid : a.nodeId = node.id
  · obtain ⟨helig', hle'⟩ := hroom ⟨a, ha, hid⟩
    rw [hid]
    exact ⟨node, AList.lookup_insert _, helig', hle'⟩
  · exact ⟨old, (AList.lookup_insert_ne hid).trans hold, helig, hle⟩

theorem PlanFits.commitAll {s : StateStore} {allocs other done rest : List Allocation}
    (hs : ∀ a ∈ s.listAllocs, 0 ≤ a.resources) (h : PlanFits s allocs) (ho : PlanFits s other)
    (hdone : other = done ++ rest)
    (hroom : ∀ a ∈ allocs, (∃ b ∈ other, b.nodeId = a.nodeId) → ∀ node,
      s.getNode a.nodeId = some node → usage s a.nodeId + planUsage a.nodeId other +
        planUsage a.nodeId allocs ≤ node.resources) :
    PlanFits (s.commitAll done) allocs := by
  refine ⟨h.nonneg, fun a ha => ?_⟩
  obtain ⟨node, hnode, helig, hle⟩ := h.covered a ha
  refine ⟨node, by rwa [StateStore.getNode_commitAll], helig, ?_⟩
  have hgrowth := usage_commitAll_le_plan hs hdone ho.nonneg a.nodeId
  by_cases hon : ∃ b ∈ other, b.nodeId = a.nodeId
  · calc
      usage (s.commitAll done) a.nodeId + planUsage a.nodeId allocs
        ≤ usage s a.nodeId + planUsage a.nodeId other + planUsage a.nodeId allocs := by gcongr
      _ ≤ node.resources := hroom a ha hon node hnode
  · have hnone : ∀ b ∈ other, b.nodeId ≠ a.nodeId := fun b hb hid => hon ⟨b, hb, hid⟩
    rw [planUsage_eq_zero hnone, add_zero] at hgrowth
    exact le_trans (by gcongr) hle

namespace Server

def CommitSafe (s : Server) : Prop :=
  ∀ i eval plan, s.workers i = .commit eval plan → commitsSafely s.raft plan.allocs = true

/-- Steps leave room for the plans that wait for their commit: a node that such a plan uses is
re-registered only as placeable and large enough, and a plan that uses the same node is committed
only if the node has room for both. -/
def KeepsRoom (s : Server) : ServerEvent → Prop
  | .begin (.nodeRegister node) => node.validate = .ok () →
      ∀ i eval plan, s.workers i = .commit eval plan → (∃ a ∈ plan.allocs, a.nodeId = node.id) →
        nodeEligible node = true ∧
          usage s.raft.state node.id + planUsage node.id plan.allocs ≤ node.resources
  | .worker i _ _ => ∀ eval plan, s.workers i = .commit eval plan →
      ∀ j eval' plan', j ≠ i → s.workers j = .commit eval' plan' → ∀ a ∈ plan'.allocs,
        (∃ b ∈ plan.allocs, b.nodeId = a.nodeId) → ∀ node,
          s.raft.state.getNode a.nodeId = some node → usage s.raft.state a.nodeId +
            planUsage a.nodeId plan.allocs + planUsage a.nodeId plan'.allocs ≤ node.resources
  | _ => True

/-- A worker computes its plan while the sums behind it are values of type `i32`. -/
def SumsFit (s : Server) : ServerEvent → Prop
  | .worker i _ _ => ∀ eval, s.workers i = .plan eval → ∀ job,
      s.raft.state.getJob eval.jobId = some job → Release.SumsFit job s.raft.state
  | _ => True

structure PlansFit (s : Server) : Prop where
  wellFormed : s.raft.state.WellFormed
  nonneg : ∀ a ∈ s.raft.state.listAllocs, 0 ≤ a.resources
  fits : ∀ i eval plan, s.workers i = .commit eval plan → PlanFits s.raft.state plan.allocs

theorem PlansFit.new (nodeName : String) : (new nodeName).PlansFit where
  wellFormed := .new
  nonneg := by simp
  fits i eval plan h := by simp [Server.new] at h

theorem PlansFit.commitSafe {s : Server} (h : s.PlansFit) : s.CommitSafe :=
  fun i eval plan hpc => (h.fits i eval plan hpc).commitsSafely h.nonneg

section Runs
variable {F : Type} [F64 F] [Crates] {s s' : Server} {event : ServerEvent}

theorem planFits_processEval {st : StateStore} (hs : st.WellFormed) (eval : Evaluation) :
    PlanFits st (processEval F eval st).allocs where
  nonneg := processEval_nonneg F hs
  covered := processEval_covered F hs

theorem PlansFit.next (h : s.PlansFit) (hguard : s.KeepsRoom event)
    (hnext : s.next F event = some s') : s'.PlansFit := by
  -- a plan computed in this very step meets an unchanged raft node
  have hnew {i : ℕ} {eval : Evaluation} {plan : Plan}
      (hplan : plan = processEval F eval s.raft.state) (hraft : s'.raft = s.raft) :
      PlanFits s'.raft.state plan.allocs := by
    rw [hraft, hplan]
    exact planFits_processEval h.wellFormed eval
  rcases next_raft hnext with hraft | ⟨i, clock, now, eval, plan, rfl, hpc, hraft⟩ |
    ⟨request, c, rfl, hc, hacc, hraft⟩
  · refine ⟨hraft ▸ h.wellFormed, hraft ▸ h.nonneg, fun k e p hk => ?_⟩
    rcases next_commit hnext hk with ⟨hold, _⟩ | ⟨_, hplan, hraft⟩
    · exact hraft ▸ h.fits k e p hold
    · exact hnew (i := k) hplan hraft
  · obtain ⟨done, rest, hsplit, hcommit, hval, _⟩ := commitPlan_spec s.raft plan.allocs
    have hfits := h.fits i eval plan hpc
    rw [hcommit] at hraft
    refine ⟨?_, ?_, fun k e p hk => ?_⟩
    · rw [hraft]
      exact h.wellFormed.commitAll hval
    · rw [hraft]
      intro a ha
      rcases StateStore.mem_listAllocs_commitAll ha with ha | ha
      · exact hfits.nonneg a (hsplit ▸ List.mem_append_left _ ha)
      · exact h.nonneg a ha
    · rcases next_commit hnext hk with ⟨hold, hne⟩ | ⟨_, hplan, hraft⟩
      · have hki : k ≠ i := fun he => hne clock now (by rw [he])
        rw [hraft]
        exact (h.fits k e p hold).commitAll h.nonneg hfits hsplit
          (hguard eval plan hpc k e p hki hold)
      · exact hnew (i := k) hplan hraft
  · have hfits (k : ℕ) (e : Evaluation) (p : Plan) (hk : s'.workers k = .commit e p)
        (hkeep : PlanFits s.raft.state p.allocs →
          PlanFits (s.raft.committed c).state p.allocs) : PlanFits s'.raft.state p.allocs := by
      rcases next_commit hnext hk with ⟨hold, _⟩ | ⟨_, hplan, hsame⟩
      · rw [hraft]
        exact hkeep (h.fits k e p hold)
      · exact hnew (i := k) hplan hsame
    refine ⟨?_, ?_, fun k e p hk => ?_⟩
    · rw [hraft]
      exact h.wellFormed.applied hacc
    · rw [hraft]
      cases request <;> cases hc <;> exact h.nonneg
    · cases request with
      | jobRegister job =>
          cases hc
          exact hfits k e p hk fun hp => hp.congr (fun _ => rfl) fun _ => rfl
      | jobDeregister name =>
          cases hc
          exact hfits k e p hk fun hp => hp.congr (fun _ => rfl) fun _ => rfl
      | nodeRegister node =>
          cases hc
          rcases next_commit hnext hk with ⟨hold, _⟩ | ⟨_, hplan, hsame⟩
          · exact hfits k e p hk fun hp => hp.upsertNode (hguard hacc k e p hold)
          · exact hnew (i := k) hplan hsame
      | evalDequeue schedulers => cases hc

theorem PlansFit.step (h : s.PlansFit) (hguard : s.KeepsRoom event) (hsums : s.SumsFit event)
    (hstep : Release.Step F s event s') : s'.PlansFit := by
  cases hstep with
  | next hnext =>
      rcases Release.next_cases hnext with hnext | ⟨i, clock, now, rfl, hraft, harith⟩
      · exact h.next hguard hnext
      refine ⟨hraft ▸ h.wellFormed, hraft ▸ h.nonneg, fun k e p hk => ?_⟩
      have hother (pc : WorkerPc) (hworkers : s'.workers = Function.update s.workers i pc)
          (hki : k ≠ i) : PlanFits s'.raft.state p.allocs := by
        rw [hworkers, Function.update_of_ne hki] at hk
        exact hraft ▸ h.fits k e p hk
      rcases harith with ⟨eval, hplan, hworkers⟩ | ⟨eval, plan, pc, _, hpc, hworkers⟩
      · by_cases hki : k = i
        · rw [hworkers, hki, Function.update_self] at hk
          obtain ⟨rfl, rfl⟩ := WorkerPc.commit.inj hk
          rw [hraft, Release.processEval_eq F h.wellFormed (hsums eval hplan)]
          exact planFits_processEval h.wellFormed eval
        · exact hother _ hworkers hki
      · by_cases hki : k = i
        · rw [hworkers, hki, Function.update_self] at hk
          rcases hpc with rfl | rfl <;> cases hk
        · exact hother _ hworkers hki
  | relayout state inFlight hstate _ =>
      have hmem {a : Allocation} (ha : a ∈ state.listAllocs) : a ∈ s.raft.state.listAllocs :=
        hstate.allocs.values_perm.mem_iff.2 ha
      refine ⟨h.wellFormed.relayout hstate, fun a ha => h.nonneg a (hmem ha), fun i e p hpc => ?_⟩
      refine (h.fits i e p hpc).congr (fun id => (hstate.nodes.lookup_eq id).symm) fun id => ?_
      rw [usage_eq_sumBy, usage_eq_sumBy]
      exact (hstate.allocs.sumBy_eq _).symm

/-- In a run whose every step keeps room for the plans that wait, and whose plans are computed from
sums that fit, every commit is safe. -/
theorem commit_safe {nodeName : String} (h : (Release.system F nodeName).ReachableVia
    (fun s event => s.KeepsRoom event ∧ s.SumsFit event) s) : s.CommitSafe := by
  have hfit : s.PlansFit := by
    refine h.invariant PlansFit ?_ fun _ _ _ hs hg hstep => hs.step hg.1 hg.2 hstep
    rintro _ rfl
    exact .new nodeName
  exact hfit.commitSafe

end Runs

/-! ## Runs on one node -/

def toCommit (count : Int) : List ServerEvent :=
  [.begin (.nodeRegister oneNode), .finish 0 0 0, .run,
    .begin (.jobRegister (webJob count)), .finish 0 0 0] ++
    List.replicate 6 (.worker 0 (fun _ => 0) 0)

/-- The job is registered again, and a second worker, started while the first is in its pass, goes
on to its commit; then the first one commits. -/
def secondWorker : List ServerEvent :=
  [.begin (.jobRegister (webJob 2)), .finish 0 1 0, .stop, .run] ++
    List.replicate 6 (.worker 1 (fun _ => 0) 0) ++ [.worker 0 (fun _ => 0) 0]

def commitsNext (i n : ℕ) (safe : Bool) (s : Server) : Bool :=
  match s.workers i with
  | .commit _ plan => plan.allocs.length == n && commitsSafely s.raft plan.allocs == safe
  | _ => false

theorem not_commitSafe_of_commitsNext {s : Server} {i n : ℕ} (h : s.commitsNext i n false = true) :
    ¬ s.CommitSafe := by
  intro hsafe
  unfold commitsNext at h
  split at h
  next eval plan hpc => simp [hsafe i eval plan hpc] at h
  next => cases h

section Runs
attribute [local instance] Crates.literal

/-- Steps that `KeepsRoom` allows whatever plans wait, with plans whose sums fit. -/
def quietNext (s : Server) (event : ServerEvent) : Option Server :=
  match event with
  | .begin (.nodeRegister _) => none
  | .worker i _ _ => match s.workers i with
    | .commit _ _ => none
    | .plan eval =>
      if (s.raft.state.getJob eval.jobId).all fun job => Release.SumsFit job s.raft.state
      then Release.next ℚ s event else none
    | _ => Release.next ℚ s event
  | _ => Release.next ℚ s event

theorem quietNext_keepsRoom {s s' : Server} {event : ServerEvent}
    (h : s.quietNext event = some s') :
    (s.KeepsRoom event ∧ s.SumsFit event) ∧ Release.Step ℚ s event s' := by
  unfold quietNext at h
  split at h
  · cases h
  · split at h
    · cases h
    next i _ _ eval hpc =>
      rw [Option.ite_none_right_eq_some] at h
      refine ⟨⟨fun e p hi => ?_, fun e hi job hj => ?_⟩, .next h.2⟩
      · rw [hpc] at hi
        cases hi
      · rw [hpc] at hi
        obtain rfl := WorkerPc.plan.inj hi
        simpa [hj] using h.1
    next i _ _ hcommit hplan =>
      exact ⟨⟨fun e p hi => absurd hi (hcommit e p), fun e hi => absurd hi (hplan e)⟩, .next h⟩
  next hnode hworker =>
    refine ⟨?_, .next h⟩
    cases event with
    | begin request =>
        cases request with
        | nodeRegister node => exact absurd rfl (hnode node)
        | _ => exact ⟨trivial, trivial⟩
    | worker i clock now => exact absurd rfl (hworker i clock now)
    | _ => exact ⟨trivial, trivial⟩

theorem commit_safe_toCommit : ∃ s : Server, s.commitsNext 0 2 true = true ∧ s.CommitSafe := by
  have hnode : (Release.system ℚ "server-1").ReachableVia
      (fun s event => s.KeepsRoom event ∧ s.SumsFit event) _ :=
    .next (.start rfl) (.next (show Release.next ℚ (new "server-1")
      (.begin (.nodeRegister oneNode)) = some _ from rfl)) ⟨by simp [KeepsRoom, new], trivial⟩
  obtain ⟨s, hs, hnext⟩ := hnode.exists_of_exec (fun _ _ _ => quietNext_keepsRoom)
    (toCommit 2).tail (commitsNext 0 2 true) (by decide)
  exact ⟨s, hnext, commit_safe hs⟩

/-- A drain between computing and committing a plan, and two plans for the same room. -/
theorem stale_plan_commits :
    (¬ ∀ s, (Release.system ℚ "server-1").Reachable s → s.CommitSafe) ∧
      ∃ s, (Release.system ℚ "server-1").Reachable s ∧ s.commitsNext 1 2 false = true ∧
        ∀ id node, s.raft.state.getNode id = some node → nodeEligible node = true := by
  constructor
  · intro h
    obtain ⟨s, hs, hunsafe⟩ := Release.exists_reachable (F := ℚ) "server-1"
      (toCommit 2 ++ [.begin (.nodeRegister { oneNode with draining := true })])
      (commitsNext 0 2 false) (by decide)
    exact not_commitSafe_of_commitsNext hunsafe (h s hs)
  · obtain ⟨s, hs, hp⟩ := Release.exists_reachable (F := ℚ) "server-1"
      (toCommit 2 ++ secondWorker)
      (fun s => s.commitsNext 1 2 false && s.raft.state.listNodes.all nodeEligible) (by decide)
    rw [Bool.and_eq_true, List.all_eq_true] at hp
    exact ⟨s, hs, hp.1, fun id node hid => hp.2 node (HashMap.mem_values_of_lookup hid)⟩

end Runs
end Server
end NomadRs
