import NomadRs.Constraint

/-!
# Job specifications and their validation

Jobs, task groups, tasks and resource demands. `i32` values are integers, of which `I32` says that
they are in range. `Resources` is an ordered group under the componentwise operations, which is all
the accounting of capacity needs.
-/

namespace NomadRs

/-! ## Resources -/

def i32Min : Int := -2 ^ 31
def i32Max : Int := 2 ^ 31 - 1

def I32 (n : Int) : Prop := i32Min ≤ n ∧ n ≤ i32Max

instance : DecidablePred I32 := fun _ => inferInstanceAs (Decidable (_ ∧ _))

@[ext] structure Resources where
  cpuMhz : Int
  memoryMb : Int
  networkMbps : Int
  deriving DecidableEq

namespace Resources

instance : Zero Resources := ⟨⟨0, 0, 0⟩⟩

instance : Add Resources :=
  ⟨fun a b => ⟨a.cpuMhz + b.cpuMhz, a.memoryMb + b.memoryMb, a.networkMbps + b.networkMbps⟩⟩

instance : Neg Resources := ⟨fun a => ⟨-a.cpuMhz, -a.memoryMb, -a.networkMbps⟩⟩

instance : Sub Resources :=
  ⟨fun a b => ⟨a.cpuMhz - b.cpuMhz, a.memoryMb - b.memoryMb, a.networkMbps - b.networkMbps⟩⟩

/-- Componentwise order: `a ≤ b` when `b` covers `a` in every tracked resource. -/
instance : LE Resources :=
  ⟨fun a b => a.cpuMhz ≤ b.cpuMhz ∧ a.memoryMb ≤ b.memoryMb ∧ a.networkMbps ≤ b.networkMbps⟩

@[simp] theorem zero_cpuMhz : (0 : Resources).cpuMhz = 0 := rfl
@[simp] theorem zero_memoryMb : (0 : Resources).memoryMb = 0 := rfl
@[simp] theorem zero_networkMbps : (0 : Resources).networkMbps = 0 := rfl
@[simp] theorem add_cpuMhz (a b : Resources) : (a + b).cpuMhz = a.cpuMhz + b.cpuMhz := rfl
@[simp] theorem add_memoryMb (a b : Resources) : (a + b).memoryMb = a.memoryMb + b.memoryMb := rfl
@[simp] theorem add_networkMbps (a b : Resources) :
    (a + b).networkMbps = a.networkMbps + b.networkMbps := rfl
@[simp] theorem neg_cpuMhz (a : Resources) : (-a).cpuMhz = -a.cpuMhz := rfl
@[simp] theorem neg_memoryMb (a : Resources) : (-a).memoryMb = -a.memoryMb := rfl
@[simp] theorem neg_networkMbps (a : Resources) : (-a).networkMbps = -a.networkMbps := rfl
@[simp] theorem sub_cpuMhz (a b : Resources) : (a - b).cpuMhz = a.cpuMhz - b.cpuMhz := rfl
@[simp] theorem sub_memoryMb (a b : Resources) : (a - b).memoryMb = a.memoryMb - b.memoryMb := rfl
@[simp] theorem sub_networkMbps (a b : Resources) :
    (a - b).networkMbps = a.networkMbps - b.networkMbps := rfl

theorem le_def {a b : Resources} :
    a ≤ b ↔ a.cpuMhz ≤ b.cpuMhz ∧ a.memoryMb ≤ b.memoryMb ∧ a.networkMbps ≤ b.networkMbps :=
  Iff.rfl

instance (a b : Resources) : Decidable (a ≤ b) :=
  inferInstanceAs (Decidable (_ ∧ _ ∧ _))

instance : AddCommGroup Resources where
  add_assoc a b c := by ext <;> simp [add_assoc]
  zero_add a := by ext <;> simp
  add_zero a := by ext <;> simp
  add_comm a b := by ext <;> simp [add_comm]
  neg_add_cancel a := by ext <;> simp
  sub_eq_add_neg a b := by ext <;> simp [sub_eq_add_neg]
  nsmul := nsmulRec
  zsmul := zsmulRec

instance : PartialOrder Resources where
  le_refl a := by simp [le_def]
  le_trans a b c hab hbc := by
    rw [le_def] at *
    omega
  le_antisymm a b hab hba := by
    rw [le_def] at *
    ext <;> omega

instance : IsOrderedAddMonoid Resources where
  add_le_add_left a b h c := by
    rw [le_def] at *
    simp only [add_cpuMhz, add_memoryMb, add_networkMbps]
    omega

def i32Min : Resources := ⟨NomadRs.i32Min, NomadRs.i32Min, NomadRs.i32Min⟩
def i32Max : Resources := ⟨NomadRs.i32Max, NomadRs.i32Max, NomadRs.i32Max⟩

def I32 (r : Resources) : Prop := i32Min ≤ r ∧ r ≤ i32Max

instance : DecidablePred I32 := fun _ => inferInstanceAs (Decidable (_ ∧ _))

theorem i32_iff {r : Resources} : r.I32 ↔
    NomadRs.I32 r.cpuMhz ∧ NomadRs.I32 r.memoryMb ∧ NomadRs.I32 r.networkMbps := by
  simp only [I32, NomadRs.I32, le_def, i32Min, i32Max]
  tauto

def nonNegative (field : String) (value : Int) : Result Unit :=
  ensure (0 ≤ value) (.validation s!"{field} cannot be negative ({value})")

def validate (self : Resources) : Result Unit := do
  nonNegative "cpu_mhz" self.cpuMhz
  nonNegative "memory_mb" self.memoryMb
  nonNegative "network_mbps" self.networkMbps

theorem validate_eq_ok {r : Resources} : r.validate = .ok () ↔ 0 ≤ r := by
  simp [validate, nonNegative, Result.bind_eq_ok, le_def]

end Resources

/-! ## Tasks, groups and jobs -/

structure Task where
  name : String
  driver : String
  resources : Resources
  deriving DecidableEq

def Task.validate (self : Task) : Result Unit := do
  requireNonEmpty self.name (.validation "task name cannot be empty")
  requireNonEmpty self.driver (.validation s!"task '{self.name}' driver cannot be empty")
  self.resources.validate

/-- `count` instances of a set of tasks that run on one node. -/
structure TaskGroup where
  name : String
  count : Int
  tasks : List Task
  constraints : List Constraint
  affinities : List Affinity
  spreads : List Spread
  deriving DecidableEq

/-- The task loop of `TaskGroup::validate`; `seen` holds the names inserted so far. -/
def TaskGroup.validateTasks (group : String) : List String → List Task → Result Unit
  | _, [] => .ok ()
  | seen, task :: tasks => do
    ensure (!seen.contains task.name)
      (.validation s!"duplicate task name '{task.name}' in task group '{group}'")
    task.validate
    validateTasks group (task.name :: seen) tasks

def TaskGroup.validate (self : TaskGroup) : Result Unit := do
  requireNonEmpty self.name (.validation "task group name cannot be empty")
  ensure (0 ≤ self.count)
    (.validation s!"task group '{self.name}' count cannot be negative ({self.count})")
  ensure (!self.tasks.isEmpty) (.validation s!"task group '{self.name}' has no tasks")
  TaskGroup.validateTasks self.name [] self.tasks

structure Job where
  name : String
  datacenters : List String
  taskGroups : List TaskGroup
  priority : Int
  deriving DecidableEq

def jobMinPriority : Int := 1
def jobMaxPriority : Int := 100

def Job.validateGroups : List TaskGroup → Result Unit
  | [] => .ok ()
  | group :: groups => do
    group.validate
    validateGroups groups

def Job.validate (self : Job) : Result Unit := do
  requireNonEmpty self.name (.validation "job name cannot be empty")
  ensure (jobMinPriority ≤ self.priority && self.priority ≤ jobMaxPriority)
    (.validation s!"priority {self.priority} out of range [{jobMinPriority}, {jobMaxPriority}]")
  ensure (!self.datacenters.isEmpty) (.validation "at least one datacenter is required")
  ensure (!self.datacenters.any String.isEmpty)
    (.validation "datacenter names cannot be empty")
  Job.validateGroups self.taskGroups

/-! ## What the validators accept -/

theorem Task.validate_eq_ok {task : Task} : task.validate = .ok () ↔
    task.name.isEmpty = false ∧ task.driver.isEmpty = false ∧ 0 ≤ task.resources := by
  simp [validate, requireNonEmpty, Result.bind_check_eq_ok, Resources.validate_eq_ok]

theorem TaskGroup.validateTasks_eq_ok {group : String} {seen : List String} {tasks : List Task} :
    validateTasks group seen tasks = .ok () ↔
      (tasks.map Task.name).Nodup ∧ (∀ task ∈ tasks, task.name ∉ seen) ∧
        ∀ task ∈ tasks, task.validate = .ok () := by
  induction tasks generalizing seen with
  | nil => simp [validateTasks]
  | cons task tasks ih =>
      have hnew : (!seen.contains task.name) = true ↔ task.name ∉ seen := by simp
      have hapart : (∀ t ∈ tasks, t.name ≠ task.name) ↔ task.name ∉ tasks.map Task.name := by
        simp [List.mem_map]
      simp only [validateTasks, Result.bind_check_eq_ok, ensure_eq_ok, ih, List.map_cons,
        List.nodup_cons, List.forall_mem_cons, hnew, ← hapart]
      constructor
      · rintro ⟨hseen, htask, hnodup, hfresh, htasks⟩
        exact ⟨⟨fun t ht h => hfresh t ht (h ▸ List.mem_cons_self), hnodup⟩,
          ⟨hseen, fun t ht h => hfresh t ht (List.mem_cons_of_mem _ h)⟩, htask, htasks⟩
      · rintro ⟨⟨hne, hnodup⟩, ⟨hseen, hold⟩, htask, htasks⟩
        refine ⟨hseen, htask, hnodup, fun t ht h => ?_, htasks⟩
        exact (List.mem_cons.1 h).elim (hne t ht) (hold t ht)

theorem TaskGroup.validate_eq_ok {group : TaskGroup} : group.validate = .ok () ↔
    group.name.isEmpty = false ∧ 0 ≤ group.count ∧ group.tasks ≠ [] ∧
      (group.tasks.map Task.name).Nodup ∧ ∀ task ∈ group.tasks, task.validate = .ok () := by
  simp [validate, requireNonEmpty, Result.bind_check_eq_ok, validateTasks_eq_ok]

theorem Job.validateGroups_eq_ok {groups : List TaskGroup} :
    validateGroups groups = .ok () ↔ ∀ group ∈ groups, group.validate = .ok () := by
  induction groups with
  | nil => simp [validateGroups]
  | cons group groups ih =>
      rw [validateGroups, Result.bind_check_eq_ok, ih, List.forall_mem_cons]

theorem Job.validate_eq_ok {job : Job} : job.validate = .ok () ↔
    job.name.isEmpty = false ∧ (jobMinPriority ≤ job.priority ∧ job.priority ≤ jobMaxPriority) ∧
      job.datacenters ≠ [] ∧ (∀ dc ∈ job.datacenters, dc.isEmpty = false) ∧
      ∀ group ∈ job.taskGroups, group.validate = .ok () := by
  simp [validate, requireNonEmpty, Result.bind_check_eq_ok, validateGroups_eq_ok]

/-- What an accepted group promises the scheduler. -/
theorem TaskGroup.validate_ok {group : TaskGroup} (h : group.validate = .ok ()) :
    group.name.isEmpty = false ∧ 0 ≤ group.count ∧
      ∀ task ∈ group.tasks, 0 ≤ task.resources := by
  obtain ⟨hname, hcount, _, _, htasks⟩ := validate_eq_ok.1 h
  exact ⟨hname, hcount, fun task ht => (Task.validate_eq_ok.1 (htasks task ht)).2.2⟩

theorem Job.validate_ok {job : Job} (h : job.validate = .ok ()) :
    job.name.isEmpty = false ∧ ∀ group ∈ job.taskGroups, group.validate = .ok () := by
  obtain ⟨hname, _, _, _, hgroups⟩ := validate_eq_ok.1 h
  exact ⟨hname, hgroups⟩

end NomadRs
