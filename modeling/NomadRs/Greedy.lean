import NomadRs.PlacementRules

/-!
# Plans are greedy

Instance by instance, in the order of the groups, each goes to the best node that still has room,
and nowhere only if none has: `Greedy` says this without a free list that is written to, a sort or
a search. While the sums fit, the plan of an evaluation is the one greedy placement there is
(`greedy_iff_processEval`), so the two loops and the bookkeeping between the groups add nothing.
-/

namespace NomadRs

section Greedy
variable (F : Type) [F64 F] [Crates] (s : StateStore)

/-- From `as` the wanted instances are placed one after the other. -/
inductive Greedy (eval : Evaluation) (job : Job) :
    List TaskGroup → List Allocation → List Allocation → Prop
  | done (as : List Allocation) : Greedy eval job [] as as
  | place {group : TaskGroup} {groups : List TaskGroup} {as as' : List Allocation} {e : FreeEntry} :
      Best F s group (remaining s as) e →
      Greedy eval job groups
        (as ++ [makeAlloc eval ⟨as⟩ job group (groupDemand group) e.1.1.id]) as' →
      Greedy eval job (group :: groups) as as'
  | skip {group : TaskGroup} {groups : List TaskGroup} {as as' : List Allocation} :
      (∀ e ∈ remaining s as, hasRoom group (groupDemand group) e = false) →
      Greedy eval job groups as as' → Greedy eval job (group :: groups) as as'

variable {F s} {eval : Evaluation} {job : Job} {group : TaskGroup} {as : List Allocation}
  [Std.TransCmp (@F64.totalCmp F _)]

theorem greedy_iff_foldl {groups : List TaskGroup} {as as' : List Allocation} :
    Greedy F s eval job groups as as' ↔ as' = groups.foldl (placeNext F s eval job) as := by
  induction groups generalizing as with
  | nil =>
      constructor
      · rintro ⟨⟩
        rfl
      · rintro rfl
        exact .done _
  | cons group groups ih =>
      rw [List.foldl_cons]
      constructor
      · intro h
        cases h with
        | place hbest hrest =>
            rw [placeNext_of_some hbest.choice_eq]
            exact ih.1 hrest
        | skip hfull hrest =>
            rw [placeNext_of_none ((choice_eq_none_iff F).2 hfull)]
            exact ih.1 hrest
      · intro h
        cases hc : choice F s group (remaining s as) with
        | none =>
            rw [placeNext_of_none hc] at h
            exact .skip ((choice_eq_none_iff F).1 hc) (ih.2 h)
        | some nodeId =>
            obtain ⟨e, hbest, rfl⟩ := exists_best hc
            rw [placeNext_of_some hc] at h
            exact .place hbest (ih.2 h)

/-- The plan for a job is its greedy placement, and there is only this one. -/
theorem greedy_iff_processEval {fsm : Fsm} (h : storeSystem.Reachable fsm)
    (hj : fsm.state.getJob eval.jobId = some job) (hfit : Release.SumsFit job fsm.state)
    (as : List Allocation) : Greedy F fsm.state eval job job.wanted [] as ↔
      as = (Release.processEval F eval fsm.state).allocs := by
  have hs := fsm.wellFormed_of_reachable h
  rw [Release.processEval_eq_of_job F hs hj hfit, processEval_allocs F hs hj]
  exact greedy_iff_foldl

end Greedy

section Greedy
attribute [local instance] Crates.literal

theorem greedy_iff_processEval_web :
    (Release.processEval ℚ (webEval "eval-1")
      (Fsm.registered [oneNode] (webJob 2)).state).allocs.length = 2 ∧
    Greedy ℚ (Fsm.registered [oneNode] (webJob 2)).state (webEval "eval-1") (webJob 2)
      (webJob 2).wanted [] (Release.processEval ℚ (webEval "eval-1")
        (Fsm.registered [oneNode] (webJob 2)).state).allocs :=
  ⟨by decide, (greedy_iff_processEval (Fsm.registered_reachable [oneNode] (webJob 2)) rfl
    (by decide) _).2 rfl⟩

end Greedy
end NomadRs
