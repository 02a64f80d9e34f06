import NomadRs.State

/-!
# What job admission checks

`upsert_job` stores a job that passes `Job::validate`. The scheduler relies on more than that: it
counts the allocations of a group by the group's name, and it reads the constraints, affinities and
spreads of a group as if their operands and percents had been checked. `admission_iff` says what
the validation leaves out, and `spread_total_iff` when the total of a spread, which is added up in
16 bits, is the true one.
-/

namespace NomadRs

/-! ## What the validators accept -/

theorem Constraint.validate_eq_ok {c : Constraint} : c.validate = .ok () ↔
    c.left.isEmpty = false ∧
      (c.right.isEmpty = true → c.operand = "distinct_hosts" ∨ c.operand = "distinct_property") ∧
      c.operand ∈ knownOperands := by
  cases hright : c.right.isEmpty <;>
    simp [validate, requireNonEmpty, Result.bind_check_eq_ok, hright]

theorem Affinity.validate_eq_ok {a : Affinity} : a.validate = .ok () ↔
    (-100 ≤ a.weight ∧ a.weight ≤ 100) ∧ a.left.isEmpty = false ∧ a.operand ∈ knownOperands := by
  simp [validate, requireNonEmpty, Result.bind_check_eq_ok]

/-! ## What the scheduler relies on -/

structure TaskGroup.Admissible (group : TaskGroup) : Prop where
  name : group.name ≠ ""
  count : 0 ≤ group.count
  taskNames : (group.tasks.map Task.name).Nodup
  tasks : ∀ task ∈ group.tasks, task.name ≠ "" ∧ task.driver ≠ "" ∧ 0 ≤ task.resources
  constraints : ∀ c ∈ group.constraints, c.validate = .ok ()
  affinities : ∀ a ∈ group.affinities, a.validate = .ok ()
  spreads : ∀ s ∈ group.spreads, s.validate = .ok ()

structure Job.Admissible (job : Job) : Prop where
  name : job.name ≠ ""
  datacenters : ∀ dc ∈ job.datacenters, dc ≠ ""
  groupNames : (job.taskGroups.map TaskGroup.name).Nodup
  groups : ∀ group ∈ job.taskGroups, group.Admissible

/-- The rules of a group pass checks that `TaskGroup::validate` does not make. -/
structure TaskGroup.RulesValid (group : TaskGroup) : Prop where
  constraints : ∀ c ∈ group.constraints, c.validate = .ok ()
  affinities : ∀ a ∈ group.affinities, a.validate = .ok ()
  spreads : ∀ s ∈ group.spreads, s.validate = .ok ()

/-- What an accepted job has to have besides. -/
structure Job.Unchecked (job : Job) : Prop where
  groupNames : (job.taskGroups.map TaskGroup.name).Nodup
  rules : ∀ group ∈ job.taskGroups, group.RulesValid

theorem TaskGroup.admissible_iff {group : TaskGroup} (h : group.validate = .ok ()) :
    group.Admissible ↔ group.RulesValid := by
  obtain ⟨hname, hcount, _, hnodup, htasks⟩ := TaskGroup.validate_eq_ok.1 h
  refine ⟨fun ha => ⟨ha.constraints, ha.affinities, ha.spreads⟩, fun hr => ?_⟩
  refine ⟨by simpa using hname, hcount, hnodup, fun task ht => ?_, hr.1, hr.2, hr.3⟩
  simpa using Task.validate_eq_ok.1 (htasks task ht)

theorem Job.admissible_iff {job : Job} (h : job.validate = .ok ()) :
    job.Admissible ↔ job.Unchecked := by
  obtain ⟨hname, _, _, hdatacenters, hgroups⟩ := Job.validate_eq_ok.1 h
  constructor
  · intro ha
    refine ⟨ha.groupNames, fun group hg => ?_⟩
    exact (TaskGroup.admissible_iff (hgroups group hg)).1 (ha.groups group hg)
  · intro hu
    refine ⟨by simpa using hname, fun dc hdc => by simpa using hdatacenters dc hdc,
      hu.groupNames, fun group hg => ?_⟩
    exact (TaskGroup.admissible_iff (hgroups group hg)).2 (hu.rules group hg)

theorem StateStore.upsertJob_eq_ok {s : StateStore} {job : Job} :
    (s.upsertJob job).1 = .ok () ↔ job.validate = .ok () := by
  cases h : job.validate <;> simp [upsertJob, h]

/-- A job that is rejected leaves the store alone; one that is accepted is all the scheduler
expects exactly if its group names differ and its rules are valid, which nothing checks. -/
theorem admission_iff (s : StateStore) (job : Job) :
    (((s.upsertJob job).1 = .ok () → job.Admissible) ∧
      ∀ e, (s.upsertJob job).1 = .error e → (s.upsertJob job).2 = s) ↔
    (job.validate = .ok () → job.Unchecked) := by
  have hreject (e : Error) (he : (s.upsertJob job).1 = .error e) : (s.upsertJob job).2 = s :=
    StateStore.apply_error (c := .upsertJob job) he
  rw [and_iff_left hreject, StateStore.upsertJob_eq_ok]
  exact forall_congr' Job.admissible_iff

/-- Two groups of one name, the second with a constraint that no node satisfies. -/
def twinJob : Job :=
  { webJob 1 with
    taskGroups := (webJob 1).taskGroups ++ (webJob 1).taskGroups.map fun g =>
      { g with constraints := [⟨"rack", "rack-1", "bogus"⟩] } }

theorem twins_admitted : ¬ ∀ (s : StateStore) (job : Job),
    ((s.upsertJob job).1 = .ok () → job.Admissible) ∧
      ∀ e, (s.upsertJob job).1 = .error e → (s.upsertJob job).2 = s := by
  intro h
  have hadmitted := (h .new twinJob).1 (by decide)
  exact absurd hadmitted.groupNames (by decide)

/-! ## The total of a spread -/

theorem toNat_total (targets : List SpreadTarget) (total : UInt16) :
    (targets.foldl (fun total t => total + UInt16.ofNat t.percent) total).toNat =
      (total.toNat + (targets.map SpreadTarget.percent).sum) % 2 ^ 16 := by
  induction targets generalizing total with
  | nil => simp [Nat.mod_eq_of_lt total.toNat_lt]
  | cons t targets ih =>
      rw [List.foldl_cons, ih, List.map_cons, List.sum_cons, UInt16.toNat_add,
        UInt16.toNat_ofNat']
      omega

theorem Spread.validate_eq_ok {s : Spread} : s.validate = .ok () ↔
    s.attr.isEmpty = false ∧ (s.targets.map SpreadTarget.percent).sum % 2 ^ 16 ≤ 100 := by
  have htotal := toNat_total s.targets 0
  simp only [UInt16.toNat_zero, Nat.zero_add] at htotal
  simp [validate, requireNonEmpty, Result.bind_check_eq_ok, UInt16.le_iff_toNat_le, htotal]

/-- The check is exact unless the percents add up to a positive multiple of 65536 or to at most 100
more than one. -/
theorem spread_total_iff (s : Spread) (hattr : s.attr ≠ "") :
    (s.validate = .ok () ↔ (s.targets.map SpreadTarget.percent).sum ≤ 100) ↔
      ∀ k, 0 < k → (s.targets.map SpreadTarget.percent).sum < 65536 * k ∨
        65536 * k + 100 < (s.targets.map SpreadTarget.percent).sum := by
  have hempty : s.attr.isEmpty = false := by simpa using hattr
  rw [Spread.validate_eq_ok, and_iff_right hempty]
  generalize (s.targets.map SpreadTarget.percent).sum = total
  constructor
  · intro hexact k hk
    omega
  · intro hapart
    have hown := hapart (total / 65536)
    omega

theorem spread_total_iff_even :
    ((Spread.mk "rack" [⟨"rack-1", 50⟩, ⟨"rack-2", 50⟩]).validate = .ok () ↔
      ([⟨"rack-1", 50⟩, ⟨"rack-2", 50⟩].map SpreadTarget.percent).sum ≤ 100) := by
  refine (spread_total_iff ⟨"rack", [⟨"rack-1", 50⟩, ⟨"rack-2", 50⟩]⟩ (by decide)).2 ?_
  intro k hk
  exact .inl (Nat.lt_of_lt_of_le (by decide) (Nat.mul_le_mul_left 65536 hk))

/-- 656 targets of 100 percent, which add up to 65600. -/
def crowdedSpread : Spread where
  attr := "rack"
  targets := List.replicate 656 ⟨"rack-1", 100⟩

theorem crowdedSpread_total : (crowdedSpread.targets.map SpreadTarget.percent).sum = 65600 := by
  simp only [crowdedSpread, List.map_replicate, List.sum_replicate, smul_eq_mul]

theorem spread_total_wraps : ¬ ∀ s : Spread, s.attr ≠ "" → (∀ t ∈ s.targets, t.percent < 2 ^ 8) →
    (s.validate = .ok () ↔ (s.targets.map SpreadTarget.percent).sum ≤ 100) := by
  intro h
  have hattr : crowdedSpread.attr = "rack" := rfl
  have htargets : ∀ t ∈ crowdedSpread.targets, t.percent < 2 ^ 8 := by
    intro t ht
    rw [List.eq_of_mem_replicate ht]
    decide
  have hiff := h crowdedSpread (by rw [hattr]; decide) htargets
  rw [Spread.validate_eq_ok, crowdedSpread_total, hattr] at hiff
  revert hiff
  decide

end NomadRs
