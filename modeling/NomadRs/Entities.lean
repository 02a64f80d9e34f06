import NomadRs.Jobspec

/-!
# Nodes, allocations and evaluations

The three records the servers keep beside jobs, with the checks a store makes before it accepts
one. Identifiers are strings: the source's newtypes only keep one kind of id from being passed
for another.
-/

namespace NomadRs

abbrev NodeId := String
abbrev AllocId := String
abbrev EvalId := String
abbrev JobId := String

inductive NodeStatus
  | init | ready | down | disconnected
  deriving DecidableEq

inductive SchedulingEligibility
  | eligible | ineligible
  deriving DecidableEq

structure Node where
  id : NodeId
  name : String
  datacenter : String
  resources : Resources
  status : NodeStatus
  eligibility : SchedulingEligibility
  draining : Bool
  attributes : HashMap String String

def Node.validate (self : Node) : Result Unit := do
  requireNonEmpty self.id (.validation "node id cannot be empty")
  requireNonEmpty self.name (.validation "node name cannot be empty")
  requireNonEmpty self.datacenter (.validation "node datacenter cannot be empty")

theorem Node.validate_ok {node : Node} (h : node.validate = .ok ()) : node.id.isEmpty = false := by
  simp only [validate, requireNonEmpty, Result.bind_eq_ok, ensure_eq_ok, exists_const] at h
  simpa using h.1

inductive DesiredStatus
  | run | stop | evict
  deriving DecidableEq

def DesiredStatus.asStr : DesiredStatus → String
  | .run => "run"
  | .stop => "stop"
  | .evict => "evict"

inductive ClientStatus
  | pending | running | complete | failed | lost
  deriving DecidableEq

def ClientStatus.asStr : ClientStatus → String
  | .pending => "pending"
  | .running => "running"
  | .complete => "complete"
  | .failed => "failed"
  | .lost => "lost"

def ClientStatus.isTerminal : ClientStatus → Bool
  | .complete | .failed | .lost => true
  | .pending | .running => false

structure Allocation where
  id : AllocId
  evalId : EvalId
  nodeId : NodeId
  jobId : JobId
  taskGroup : String
  desiredStatus : DesiredStatus
  clientStatus : ClientStatus
  resources : Resources
  deriving DecidableEq

def Allocation.validate (self : Allocation) : Result Unit := do
  requireNonEmpty self.id (.validation "alloc id cannot be empty")
  requireNonEmpty self.nodeId (.validation "alloc node_id cannot be empty")
  requireNonEmpty self.jobId (.validation "alloc job_id cannot be empty")
  requireNonEmpty self.taskGroup (.validation "alloc task_group cannot be empty")

theorem Allocation.validate_eq_ok {a : Allocation} : a.validate = .ok () ↔
    a.id.isEmpty = false ∧ a.nodeId.isEmpty = false ∧ a.jobId.isEmpty = false ∧
      a.taskGroup.isEmpty = false := by
  simp [validate, requireNonEmpty, Result.bind_eq_ok]

inductive EvalTrigger
  | jobRegister | jobDeregister | nodeUpdate | nodeDrain | allocFailure | maxPlanAttempts
  deriving DecidableEq

inductive EvalStatus
  | blocked | pending | complete | failed | canceled
  deriving DecidableEq

structure Evaluation where
  id : EvalId
  jobId : JobId
  priority : Int
  trigger : EvalTrigger
  status : EvalStatus
  deriving DecidableEq

def Evaluation.validate (self : Evaluation) : Result Unit := do
  requireNonEmpty self.id (.validation "eval id cannot be empty")
  requireNonEmpty self.jobId (.validation "eval job_id cannot be empty")
  ensure (jobMinPriority ≤ self.priority && self.priority ≤ jobMaxPriority)
    (.validation s!"priority {self.priority} out of range ({jobMinPriority}-{jobMaxPriority})")

/-! ## A node, a job and an evaluation to run -/

def oneNode : Node where
  id := "node-1"
  name := "node-1"
  datacenter := "dc1"
  resources := ⟨1000, 1024, 100⟩
  status := .ready
  eligibility := .eligible
  draining := false
  attributes := ∅

def webJob (count : Int) : Job where
  name := "web"
  datacenters := ["dc1"]
  taskGroups := [{
    name := "cache", count, constraints := [], affinities := [], spreads := []
    tasks := [{ name := "redis", driver := "docker", resources := ⟨500, 512, 10⟩ }] }]
  priority := 50

def webEval (id : EvalId) : Evaluation :=
  { id, jobId := "web", priority := 50, trigger := .jobRegister, status := .pending }

end NomadRs
