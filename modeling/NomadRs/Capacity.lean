import NomadRs.Usage

/-!
# Nodes are never overcommitted

Runs of commands and evaluations on an empty state machine. Commands may change jobs freely,
register nodes and re-register them without shrinking, and end allocations; any evaluation may be
processed at any time, and repeatedly. `CapacityInv` is preserved by each of these steps, so in
every reachable state the live allocations of a node fit on it.
-/

namespace NomadRs

def StateStore.Allows (s : StateStore) : Command → Prop
  | .upsertJob _ | .deregisterJob _ | .upsertEval _ => True
  | .upsertNode node => ∀ old, s.getNode node.id = some old → old.resources ≤ node.resources
  | .upsertAlloc a => ∃ stored status, s.getAlloc a.id = some stored ∧
      status.isTerminal = true ∧ a = { stored with clientStatus := status }

inductive ClusterEvent
  | command (c : Command)
  | processAndApply (eval : Evaluation)
  | relayout

section Runs
variable (F : Type) [F64 F] [Crates]

inductive ClusterStep : Fsm → ClusterEvent → Fsm → Prop
  | command (fsm : Fsm) (c : Command) :
      fsm.state.Allows c → ClusterStep fsm (.command c) (fsm.apply c).2
  | processAndApply (fsm : Fsm) (eval : Evaluation) :
      ClusterStep fsm (.processAndApply eval) (processAndApply F eval fsm).2
  | relayout (fsm fsm' : Fsm) :
      fsm.state.Relayout fsm'.state → ClusterStep fsm .relayout fsm'

def cluster : System Fsm ClusterEvent where
  start fsm := fsm = .new
  step := ClusterStep F

end Runs

/-! ## The invariant -/

/-- Reservations are nonnegative, and a live allocation sits on a stored node that holds it
together with everything else live there. -/
structure CapacityInv (s : StateStore) : Prop where
  wellFormed : s.WellFormed
  nonneg : ∀ a ∈ s.listAllocs, 0 ≤ a.resources
  covered : ∀ a ∈ s.listAllocs, isLive a.clientStatus = true →
    ∃ node, s.getNode a.nodeId = some node ∧ usage s a.nodeId ≤ node.resources

namespace CapacityInv
variable {s s' : StateStore}

theorem new : CapacityInv .new :=
  ⟨.new, by simp [StateStore.new, StateStore.listAllocs],
    by simp [StateStore.new, StateStore.listAllocs]⟩

theorem relayout (h : CapacityInv s) (hr : s.Relayout s') : CapacityInv s' := by
  have hmem {a : Allocation} (ha : a ∈ s'.listAllocs) : a ∈ s.listAllocs :=
    hr.allocs.values_perm.mem_iff.2 ha
  refine ⟨h.wellFormed.relayout hr, fun a ha => h.nonneg a (hmem ha), fun a ha hlive => ?_⟩
  obtain ⟨node, hnode, hle⟩ := h.covered a (hmem ha) hlive
  refine ⟨node, (hr.nodes.lookup_eq _).symm.trans hnode, ?_⟩
  rw [usage_eq_sumBy, ← hr.allocs.sumBy_eq, ← usage_eq_sumBy]
  exact hle

theorem of_eq (h : CapacityInv s) (hwf : s'.WellFormed) (hnodes : s'.nodes = s.nodes)
    (hallocs : s'.allocs = s.allocs) : CapacityInv s' := by
  refine ⟨hwf, ?_, ?_⟩
  · simpa only [StateStore.listAllocs, hallocs] using h.nonneg
  · simpa only [StateStore.listAllocs, StateStore.getNode, usage_eq_sumBy, hallocs, hnodes]
      using h.covered

theorem upsertNode (h : CapacityInv s) {node : Node} (hs : s.Accepts (.upsertNode node))
    (hgrow : s.Allows (.upsertNode node)) : CapacityInv (s.applied (.upsertNode node)) := by
  refine ⟨h.wellFormed.applied hs, h.nonneg, fun a ha hlive => ?_⟩
  obtain ⟨old, hold, hle⟩ := h.covered a ha hlive
  by_cases hid : a.nodeId = node.id
  · refine ⟨node, ?_, hle.trans (hgrow old (hid ▸ hold))⟩
    rw [StateStore.getNode, StateStore.applied, hid]
    exact AList.lookup_insert _
  · refine ⟨old, ?_, hle⟩
    rw [StateStore.getNode, StateStore.applied, AList.lookup_insert_ne hid]
    exact hold

theorem upsertAlloc (h : CapacityInv s) {a : Allocation} (hs : s.Accepts (.upsertAlloc a))
    (hend : s.Allows (.upsertAlloc a)) : CapacityInv (s.applied (.upsertAlloc a)) := by
  obtain ⟨stored, status, hstored, hterm, rfl⟩ := hend
  set a : Allocation := { stored with clientStatus := status }
  have hnot : isLive a.clientStatus = false := by
    change isLive status = false
    cases status <;> simp_all [ClientStatus.isTerminal, isLive]
  have hzero (id : NodeId) : charge id a = 0 := by simp [charge, hnot]
  refine ⟨h.wellFormed.applied hs, ?_, ?_⟩
  · intro b hb
    rcases HashMap.mem_values_insert hb with rfl | hb
    · exact h.nonneg stored (HashMap.mem_values_of_lookup hstored)
    · exact h.nonneg b hb
  · intro b hb hlive
    rcases HashMap.mem_values_insert hb with rfl | hb
    · rw [hnot] at hlive
      cases hlive
    · obtain ⟨node, hnode, hle⟩ := h.covered b hb hlive
      refine ⟨node, hnode, le_trans ?_ hle⟩
      rw [usage_eq_sumBy, usage_eq_sumBy]
      refine (HashMap.sumBy_insert_le _ ?_ _ _).trans ?_
      · exact fun c hc => charge_nonneg (h.nonneg c hc) _
      · rw [hzero, zero_add]

theorem apply (h : CapacityInv s) {c : Command} (hc : s.Allows c) :
    CapacityInv (s.apply c).2 := by
  rcases s.apply_cases c with ⟨hs, happ⟩ | ⟨_, e, happ⟩
  · rw [happ]
    cases c with
    | upsertJob job => exact h.of_eq (h.wellFormed.applied hs) rfl rfl
    | deregisterJob name => exact h.of_eq (h.wellFormed.applied hs) rfl rfl
    | upsertNode node => exact h.upsertNode hs hc
    | upsertAlloc a => exact h.upsertAlloc hs hc
    | upsertEval eval => exact h.of_eq (h.wellFormed.applied hs) rfl rfl
  · rw [happ]
    exact h

/-- Committing any part of a plan that fits keeps the invariant. -/
theorem commitAll (h : CapacityInv s) {plan done : List Allocation}
    (hdone : ∃ rest, plan = done ++ rest) (hval : ∀ a ∈ done, a.validate = .ok ())
    (hpos : ∀ a ∈ plan, 0 ≤ a.resources)
    (hfit : ∀ a ∈ plan, ∃ node, s.getNode a.nodeId = some node ∧
      usage s a.nodeId + planUsage a.nodeId plan ≤ node.resources) :
    CapacityInv (s.commitAll done) := by
  obtain ⟨rest, hsplit⟩ := hdone
  have hsub : ∀ a ∈ done, a ∈ plan := fun a ha => hsplit ▸ List.mem_append_left _ ha
  have hgrowth (id : NodeId) := usage_commitAll_le_plan h.nonneg hsplit hpos id
  refine ⟨h.wellFormed.commitAll hval, ?_, fun a ha hlive => ?_⟩
  · intro a ha
    exact (StateStore.mem_listAllocs_commitAll ha).elim (fun ha => hpos a (hsub a ha)) (h.nonneg a)
  · rw [StateStore.getNode_commitAll]
    by_cases hon : ∃ b ∈ plan, b.nodeId = a.nodeId
    · obtain ⟨b, hb, hid⟩ := hon
      obtain ⟨node, hnode, hle⟩ := hfit b hb
      rw [hid] at hnode hle
      exact ⟨node, hnode, (hgrowth _).trans hle⟩
    · have hnone : ∀ b ∈ plan, b.nodeId ≠ a.nodeId := fun b hb hid => hon ⟨b, hb, hid⟩
      have hold : a ∈ s.listAllocs :=
        (StateStore.mem_listAllocs_commitAll ha).resolve_left fun ha => hnone a (hsub a ha) rfl
      obtain ⟨node, hnode, hle⟩ := h.covered a hold hlive
      refine ⟨node, hnode, (hgrowth _).trans ?_⟩
      rwa [planUsage_eq_zero hnone, add_zero]

end CapacityInv

section Runs
variable (F : Type) [F64 F] [Crates]

theorem CapacityInv.processAndApply {fsm : Fsm} (h : CapacityInv fsm.state) (eval : Evaluation) :
    CapacityInv (processAndApply F eval fsm).2.state := by
  obtain ⟨done, rest, hplan, hst, hval, _⟩ :=
    applyPlan_spec fsm (processEval F eval fsm.state).allocs
  rw [processAndApply_eq, hst]
  refine h.commitAll ⟨rest, hplan⟩ hval (processEval_nonneg F h.wellFormed) fun a ha => ?_
  obtain ⟨node, hnode, _, hle⟩ := processEval_covered F h.wellFormed a ha
  exact ⟨node, hnode, hle⟩

theorem CapacityInv.step {fsm fsm' : Fsm} {e : ClusterEvent} (h : CapacityInv fsm.state)
    (hstep : ClusterStep F fsm e fsm') : CapacityInv fsm'.state := by
  cases hstep with
  | command c hc => exact h.apply hc
  | processAndApply eval => exact h.processAndApply F eval
  | relayout _ hr => exact h.relayout hr

theorem CapacityInv.of_reachable {fsm : Fsm} (h : (cluster F).Reachable fsm) :
    CapacityInv fsm.state := by
  refine h.invariant (fun fsm => CapacityInv fsm.state) ?_ fun _ _ _ hi _ hs => hi.step F hs
  rintro _ rfl
  exact .new

/-- In every reachable state, the live allocations of a stored node fit on it. -/
theorem live_within_capacity {fsm : Fsm} (h : (cluster F).Reachable fsm) {id : NodeId}
    {node : Node} (hnode : fsm.state.getNode id = some node)
    (hlive : liveOn fsm.state id ≠ []) : usage fsm.state id ≤ node.resources := by
  obtain ⟨a, ha⟩ := List.exists_mem_of_ne_nil _ hlive
  simp only [liveOn, StateStore.allocsByNode, List.mem_filter, beq_iff_eq] at ha
  obtain ⟨⟨hstored, rfl⟩, halive⟩ := ha
  obtain ⟨node', hnode', hle⟩ := (CapacityInv.of_reachable F h).covered a hstored halive
  rw [hnode] at hnode'
  cases hnode'
  exact hle

def placed : Fsm :=
  let fsm := (Fsm.new.apply (.upsertNode oneNode)).2
  (processAndApply F (webEval "eval-1") (fsm.apply (.upsertJob (webJob 1))).2).2

theorem placed_reachable : (cluster F).Reachable (placed F) := by
  have hnode : (cluster F).Reachable (Fsm.new.apply (.upsertNode oneNode)).2 :=
    .next (.start rfl) (.command _ _ (by simp [StateStore.Allows, Fsm.new, StateStore.getNode,
      StateStore.new]))
  exact .next (.next hnode (.command _ (.upsertJob (webJob 1)) trivial)) (.processAndApply _ _)

end Runs

attribute [local instance] Crates.literal in
theorem live_within_capacity_placed :
    0 < (usage (placed ℚ).state "node-1").cpuMhz ∧
      usage (placed ℚ).state "node-1" ≤ oneNode.resources :=
  ⟨by decide, live_within_capacity ℚ (placed_reachable ℚ) rfl (by decide)⟩

end NomadRs
