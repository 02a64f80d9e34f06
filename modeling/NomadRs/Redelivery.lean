import NomadRs.PlacementRules
import NomadRs.PlanSound

/-!
# An evaluation that is delivered again

The ids of the allocations come from the evaluation and their position in the plan, so a second
delivery writes over the records of the first one. The first allocations reserve capacity by then,
hence the second plan may choose other nodes for the same positions and move live allocations
(`redelivery_moves_allocation`). That each instance is to be what is recorded under its id already
is one more rule that placements do not check, so that `redelivery_harmless_iff` says when it is
obeyed.
-/

namespace NomadRs

/-- Registrations of nodes, and iteration orders that change between them. -/
inductive Registered : Fsm → Fsm → Prop
  | refl (fsm : Fsm) : Registered fsm fsm
  | upsertNode {fsm fsm' : Fsm} (node : Node) :
      Registered fsm fsm' → Registered fsm (fsm'.apply (.upsertNode node)).2
  | relayout {fsm fsm' fsm'' : Fsm} :
      Registered fsm fsm' → fsm'.state.Relayout fsm''.state → Registered fsm fsm''

theorem Registered.wellFormed {fsm fsm' : Fsm} (h : Registered fsm fsm')
    (hs : fsm.state.WellFormed) : fsm'.state.WellFormed := by
  induction h with
  | refl => exact hs
  | upsertNode node _ ih => exact ih.apply (.upsertNode node)
  | relayout _ hr ih => exact ih.relayout hr

def StateStore.KeepsAllocs (s s' : StateStore) : Prop :=
  ∀ id a, s.getAlloc id = some a → s'.getAlloc id = some a

theorem keepsAllocs_commitAll_iff {s : StateStore} {as : List Allocation}
    (hids : (as.map Allocation.id).Nodup) :
    s.KeepsAllocs (s.commitAll as) ↔ ∀ a ∈ as, ∀ old, s.getAlloc a.id = some old → old = a := by
  constructor
  · intro h a ha old hold
    have hnew := StateStore.getAlloc_commitAll_of_mem (s := s) hids ha
    rw [h _ _ hold, Option.some_inj] at hnew
    exact hnew
  · intro h id old hold
    by_cases hmem : ∃ a ∈ as, a.id = id
    · obtain ⟨a, ha, rfl⟩ := hmem
      rw [h a ha old hold]
      exact StateStore.getAlloc_commitAll_of_mem hids ha
    · push Not at hmem
      rw [StateStore.getAlloc_commitAll_of_notMem hmem, hold]

section Runs
variable [Crates] {eval : Evaluation} {job : Job} {s : StateStore}

/-- Whether a record under the next id, if there is one, is a pending instance of the group on the
node. -/
def asRecorded (s : StateStore) (eval : Evaluation) (job : Job) (group : TaskGroup)
    (as : List Allocation) (node : Node) : Bool :=
  (s.getAlloc s!"{eval.id}-{as.length}").all fun old =>
    old.evalId = eval.id ∧ old.nodeId = node.id ∧ old.jobId = job.name ∧
      old.taskGroup = group.name ∧ old.desiredStatus = .run ∧ old.clientStatus = .pending ∧
      old.resources = (group.tasks.map Task.resources).sum

omit [Crates] in
theorem asRecorded_iff (hs : s.WellFormed) {group : TaskGroup} {as : List Allocation}
    {node : Node} : asRecorded s eval job group as node = true ↔
      ∀ old, s.getAlloc s!"{eval.id}-{as.length}" = some old →
        old = makeAlloc eval ⟨as⟩ job group (groupDemand group) node.id := by
  rw [asRecorded, groupDemand_eq]
  cases hget : s.getAlloc s!"{eval.id}-{as.length}" with
  | none => simp
  | some old =>
      have hid := (hs.allocs _ _ hget).1
      obtain ⟨⟩ := old
      simpa [makeAlloc] using fun _ _ _ _ _ _ _ => hid

omit [Crates] in
theorem guards_asRecorded (hs : s.WellFormed) :
    Guards s eval job (asRecorded s eval job) fun as =>
      ∀ a ∈ as, ∀ old, s.getAlloc a.id = some old → old = a := by
  intro group as node _
  rw [asRecorded_iff hs]
  exact List.forall_mem_append.trans (and_congr_right fun _ => List.forall_mem_singleton)

variable {F : Type} [F64 F] [Std.TransCmp (@F64.totalCmp F _)]

/-- A second run for the same evaluation, with nodes registered in between, leaves every record as
it was exactly when no node is ever ahead of the one that is recorded. -/
theorem redelivery_harmless_iff {fsm fsm' : Fsm} (h : storeSystem.Reachable fsm)
    (hreg : Registered (Release.processAndApply F eval fsm).2 fsm')
    (hfit : ∀ job, fsm'.state.getJob eval.jobId = some job → Release.SumsFit job fsm'.state) :
    fsm'.state.KeepsAllocs (Release.processAndApply F eval fsm').2.state ↔
      ∀ job, fsm'.state.getJob eval.jobId = some job →
        NeverFirst F fsm'.state eval job (asRecorded fsm'.state eval job) job.wanted [] := by
  have hs := fsm.wellFormed_of_reachable h
  have hs' := hreg.wellFormed (Release.processAndApply_wellFormed F hs eval)
  rw [Release.processAndApply_eq F hs' hfit, processAndApply_of_wellFormed F hs']
  refine (keepsAllocs_commitAll_iff (processEval_numbered F hs' eval).nodup).trans ?_
  cases hj : fsm'.state.getJob eval.jobId with
  | none => simp [processEval_of_no_job F hj]
  | some job =>
      simp only [Option.some_inj, forall_eq']
      exact processEval_obeys_iff F hs' hj (guards_asRecorded hs') (by simp)

end Runs

/-! ## A second delivery on one node and on two -/

section Runs
attribute [local instance] Crates.literal

def deliveredOnce (count : Int) : Fsm :=
  (Release.processAndApply ℚ (webEval "eval-1") (Fsm.registered [oneNode] (webJob count))).2

theorem redelivery_harmless_deliveredOnce : (deliveredOnce 1).state.KeepsAllocs
    (Release.processAndApply ℚ (webEval "eval-1") (deliveredOnce 1)).2.state := by
  have hj : (deliveredOnce 1).state.getJob (webEval "eval-1").jobId = some (webJob 1) := by decide
  refine (redelivery_harmless_iff (Fsm.registered_reachable [oneNode] (webJob 1)) (.refl _)
    fun job hjob => ?_).2 fun job hjob => ?_
  all_goals
    obtain rfl := Option.some_inj.1 (hj.symm.trans hjob)
    decide +kernel

def otherNode : Node := { oneNode with id := "node-2", name := "node-2" }

/-- The first delivery fills the node, the second one moves both instances to a node registered in
the meantime. -/
theorem redelivery_moves_allocation : ¬ ∀ (fsm fsm' : Fsm) (eval : Evaluation),
    storeSystem.Reachable fsm → Registered (Release.processAndApply ℚ eval fsm).2 fsm' →
      fsm'.state.KeepsAllocs (Release.processAndApply ℚ eval fsm').2.state := by
  intro h
  have hkeeps := h (Fsm.registered [oneNode] (webJob 2))
    ((deliveredOnce 2).apply (.upsertNode otherNode)).2 (webEval "eval-1")
    (Fsm.registered_reachable _ _) (.upsertNode otherNode (.refl _))
  have hbefore : (((deliveredOnce 2).apply (.upsertNode otherNode)).2.state.getAlloc "eval-1-0").map
      Allocation.nodeId = some "node-1" := by decide
  obtain ⟨a, ha, hnode⟩ := Option.map_eq_some_iff.1 hbefore
  have hafter : ((Release.processAndApply ℚ (webEval "eval-1")
      ((deliveredOnce 2).apply (.upsertNode otherNode)).2).2.state.getAlloc "eval-1-0").map
        Allocation.nodeId = some "node-2" := by decide
  rw [hkeeps _ _ ha, Option.map_some, hnode] at hafter
  revert hafter
  decide

end Runs
end NomadRs
