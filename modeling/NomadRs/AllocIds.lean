import NomadRs.Ownership
import NomadRs.PlanSound

/-!
# Ids of allocations never collide

The id of an allocation is made of the job, the clock reading of the evaluation and the position in
the plan, and all three can be read off it again (`allocId_injective`). So as long as each
evaluation has a reading of its own and is processed once, a plan writes over nothing that is
stored, whatever state it was computed from and whatever happened in between.
-/

open NumberedName

namespace NomadRs

theorem evalIdFor_injective {jobName other : String} {n m : ℕ}
    (h : evalIdFor jobName n = evalIdFor other m) : jobName = other ∧ n = m := by
  obtain rfl := evalIdFor_jobName_eq h
  refine ⟨rfl, @number_eq s!"eval-{jobName}" n m ?_⟩
  simpa [evalIdFor, toString] using h

theorem allocId_injective {jobName other : String} {n m i j : ℕ}
    (h : s!"{evalIdFor jobName n}-{i}" = s!"{evalIdFor other m}-{j}") :
    jobName = other ∧ n = m ∧ i = j := by
  obtain ⟨rfl, rfl⟩ := evalIdFor_injective (stem_eq h)
  exact ⟨rfl, rfl, number_eq h⟩

/-! ## Runs in which each evaluation is processed once -/

/-- A state machine; `processed` lists the job and the clock reading of each evaluation that was
processed. -/
structure IdRun where
  fsm : Fsm
  processed : List (String × ℕ) := []

inductive IdEvent
  | command (c : Command)
  | commit (eval : Evaluation) (plan : Plan)
  | relayout

section Runs
variable (F : Type) [F64 F] [Crates]

/-- Commands other than the commit of a plan write no new allocation. A plan may have been computed
from an earlier state. -/
inductive IdStep (r : IdRun) : IdEvent → IdRun → Prop
  | command (c : Command) :
      (∀ a, c = .upsertAlloc a → (r.fsm.state.getAlloc a.id).isSome) →
      IdStep r (.command c) { r with fsm := (r.fsm.apply c).2 }
  | commit {eval : Evaluation} {jobName : String} {nanos : ℕ} {s : StateStore} :
      eval.id = evalIdFor jobName nanos → (jobName, nanos) ∉ r.processed → s.WellFormed →
      IdStep r (.commit eval (processEval F eval s))
        ⟨(applyPlan r.fsm (processEval F eval s).allocs).2, (jobName, nanos) :: r.processed⟩
  | relayout (fsm : Fsm) :
      r.fsm.state.Relayout fsm.state → IdStep r .relayout { r with fsm }

def idRuns : System IdRun IdEvent where
  start r := r = ⟨.new, []⟩
  step := IdStep F

end Runs

/-- Every stored allocation was placed by an evaluation that was processed. -/
structure IdRun.Accounted (r : IdRun) : Prop where
  wellFormed : r.fsm.state.WellFormed
  named : ∀ id a, r.fsm.state.getAlloc id = some a →
    ∃ jobName nanos, (jobName, nanos) ∈ r.processed ∧
      ∃ i : ℕ, id = s!"{evalIdFor jobName nanos}-{i}"

section Runs
variable {F : Type} [F64 F] [Crates] {r r' : IdRun} {eval : Evaluation}

omit F [F64 F] [Crates] in
theorem IdRun.Accounted.command (h : r.Accounted) {c : Command}
    (hc : ∀ a, c = .upsertAlloc a → (r.fsm.state.getAlloc a.id).isSome) :
    IdRun.Accounted { r with fsm := (r.fsm.apply c).2 } := by
  rcases r.fsm.apply_cases c with ⟨hacc, happly⟩ | ⟨_, e, happly⟩
  · rw [happly]
    refine ⟨h.wellFormed.applied hacc, fun id a ha => ?_⟩
    cases c with
    | upsertAlloc b =>
        rcases HashMap.lookup_insert_eq_some.1 ha with ⟨rfl, _⟩ | ⟨_, ha⟩
        · obtain ⟨old, hold⟩ := Option.isSome_iff_exists.1 (hc b rfl)
          exact h.named _ _ hold
        · exact h.named _ _ ha
    | _ => exact h.named _ _ ha
  · rw [happly]
    exact h

theorem exists_position {s : StateStore} (hs : s.WellFormed) {a : Allocation}
    (ha : a ∈ (processEval F eval s).allocs) : ∃ i : ℕ, a.id = s!"{eval.id}-{i}" := by
  obtain ⟨i, hi⟩ := List.mem_iff_getElem?.1 ha
  exact ⟨i, processEval_numbered F hs eval i a hi⟩

theorem IdRun.Accounted.fresh (h : r.Accounted) {jobName : String} {nanos : ℕ} {s : StateStore}
    (hid : eval.id = evalIdFor jobName nanos) (hnew : (jobName, nanos) ∉ r.processed)
    (hs : s.WellFormed) :
    ∀ a ∈ (processEval F eval s).allocs, r.fsm.state.getAlloc a.id = none := by
  intro a ha
  obtain ⟨i, hi⟩ := exists_position hs ha
  cases hstored : r.fsm.state.getAlloc a.id with
  | none => rfl
  | some old =>
      obtain ⟨other, m, hmem, j, hj⟩ := h.named _ _ hstored
      rw [hi, hid] at hj
      obtain ⟨rfl, rfl, _⟩ := allocId_injective hj
      exact absurd hmem hnew

theorem IdRun.Accounted.commit (h : r.Accounted) {jobName : String} {nanos : ℕ} {s : StateStore}
    (hid : eval.id = evalIdFor jobName nanos) (hs : s.WellFormed) :
    IdRun.Accounted ⟨(applyPlan r.fsm (processEval F eval s).allocs).2,
      (jobName, nanos) :: r.processed⟩ := by
  rw [applyPlan_of_valid (processEval_valid F hs)]
  refine ⟨h.wellFormed.commitAll (processEval_valid F hs), fun id a ha => ?_⟩
  by_cases hmem : ∃ b ∈ (processEval F eval s).allocs, b.id = id
  · obtain ⟨b, hb, rfl⟩ := hmem
    obtain ⟨i, hi⟩ := exists_position hs hb
    exact ⟨jobName, nanos, List.mem_cons_self, i, hid ▸ hi⟩
  · push Not at hmem
    obtain ⟨other, m, hother, hname⟩ :=
      h.named id a ((StateStore.getAlloc_commitAll_of_notMem hmem).symm.trans ha)
    exact ⟨other, m, List.mem_cons_of_mem _ hother, hname⟩

theorem IdRun.Accounted.of_reachable (h : (idRuns F).Reachable r) : r.Accounted := by
  refine h.invariant IdRun.Accounted ?_ fun r event r' hr _ hstep => ?_
  · rintro _ rfl
    exact ⟨.new, fun id a ha => by simp [Fsm.new, StateStore.new, StateStore.getAlloc] at ha⟩
  · cases hstep with
    | command c hc => exact hr.command hc
    | commit hid _ hs => exact hr.commit hid hs
    | relayout fsm hlayout =>
        exact ⟨hr.wellFormed.relayout hlayout,
          fun id a ha => hr.named id a ((hlayout.allocs.lookup_eq id).trans ha)⟩

variable (F)

/-- The id of an allocation tells the job, the clock reading and the position it is made from. So
each plan that is committed adds as many allocations as it has. -/
theorem ids_never_collide :
    (∀ (eval eval' : Evaluation) (plan plan' : Plan) (job job' : Job) (group group' : TaskGroup)
      (need need' : Resources) (nodeId nodeId' : NodeId) (a b : String) (s t : ℕ),
      eval.id = evalIdFor a s → eval'.id = evalIdFor b t →
      (makeAlloc eval plan job group need nodeId).id =
        (makeAlloc eval' plan' job' group' need' nodeId').id →
      a = b ∧ s = t ∧ plan.allocs.length = plan'.allocs.length) ∧
    ∀ (r r' : IdRun) (eval : Evaluation) (plan : Plan), (idRuns F).Reachable r →
      IdStep F r (.commit eval plan) r' →
      applyPlan r.fsm plan.allocs = (.ok (), r'.fsm) ∧
        r'.fsm.state.listAllocs.length = r.fsm.state.listAllocs.length + plan.allocs.length := by
  refine ⟨fun eval eval' plan plan' _ _ _ _ _ _ _ _ a b s t ha hb heq => ?_,
    fun r r' eval plan hr hstep => ?_⟩
  · simp only [makeAlloc, ha, hb] at heq
    exact allocId_injective heq
  · cases hstep with
    | commit hid hnew hs =>
        have hfresh := (IdRun.Accounted.of_reachable hr).fresh (F := F) hid hnew hs
        rw [applyPlan_of_valid (processEval_valid F hs)]
        exact ⟨rfl, length_listAllocs_commitAll (processEval_numbered F hs eval).nodup hfresh⟩

end Runs

/-! ## One plan -/

section Runs
attribute [local instance] Crates.literal

def namedEval : Evaluation := webEval (evalIdFor "web" 1)

theorem ids_never_collide_namedEval :
    ((applyPlan (Fsm.registered [oneNode] (webJob 2))
        (processEval ℚ namedEval (Fsm.registered [oneNode] (webJob 2)).state).allocs
      ).2.state.listAllocs.length) =
      (Fsm.registered [oneNode] (webJob 2)).state.listAllocs.length + 2 := by
  have hnode : (idRuns ℚ).Reachable ⟨(Fsm.new.apply (.upsertNode oneNode)).2, []⟩ :=
    .next (.start rfl) (.command _ fun a ha => by cases ha)
  have hjob : (idRuns ℚ).Reachable ⟨Fsm.registered [oneNode] (webJob 2), []⟩ :=
    .next hnode (.command (.upsertJob (webJob 2)) fun a ha => by cases ha)
  have hplan := (ids_never_collide ℚ).2 _ _ namedEval _ hjob
    (@IdStep.commit ℚ _ _ _ _ "web" 1 _ rfl (by simp)
      (Fsm.wellFormed_of_reachable (Fsm.registered_reachable [oneNode] (webJob 2))))
  have htwo : (processEval ℚ namedEval (Fsm.registered [oneNode] (webJob 2)).state).allocs.length =
      2 := by decide
  rw [htwo] at hplan
  exact hplan.2

end Runs
end NomadRs
