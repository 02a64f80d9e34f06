import Mathlib.Data.List.Sort
import Mathlib.Data.Rat.Defs
import NomadRs.State

/-!
# Evaluation, ranking and placement

`processEval` turns one evaluation into a plan; `processAndApply` commits the plan to a state
machine. Scores are `f64` values in the source: `F64` names the operations the scorer performs,
and every result that does not say otherwise holds for any behaviour of them.

The mutable free list of the source is threaded through the two placement loops together with
the plan under construction.

The sums of resources and counts are exact here. `processEvalChecked` and `Release.processEval` are
the same scheduler with `i32` operations, checked and wrapping around, and agree with this one
where the sums fit.
-/

namespace NomadRs

/-- The `f64` operations of the scorer; `totalCmp` is `f64::total_cmp`. -/
class F64 (F : Type) extends Add F, Sub F, Mul F, Div F where
  ofInt : Int → F
  lt : F → F → Bool
  totalCmp : F → F → Ordering

instance : F64 ℚ where
  ofInt n := n
  lt a b := decide (a < b)
  totalCmp a b := compare a b

structure Plan where
  allocs : List Allocation := []
  deriving DecidableEq

def Plan.push (plan : Plan) (alloc : Allocation) : Plan := ⟨plan.allocs ++ [alloc]⟩

/-- A weighted node candidate; `order` is its index in the free list. -/
structure Candidate (F : Type) where
  node : Node
  free : Resources
  score : F
  order : Nat

/-- An alloc reserves capacity until it reaches a terminal client status. -/
def isLive : ClientStatus → Bool
  | .pending | .running => true
  | _ => false

def nodeEligible (node : Node) : Bool :=
  node.status == .ready && node.eligibility == .eligible && !node.draining

def fits (avail need : Resources) : Bool :=
  avail.cpuMhz ≥ need.cpuMhz && avail.memoryMb ≥ need.memoryMb &&
    avail.networkMbps ≥ need.networkMbps

def groupDemand (group : TaskGroup) : Resources :=
  group.tasks.foldl (fun acc t =>
    { cpuMhz := acc.cpuMhz + t.resources.cpuMhz
      memoryMb := acc.memoryMb + t.resources.memoryMb
      networkMbps := acc.networkMbps + t.resources.networkMbps })
    { cpuMhz := 0, memoryMb := 0, networkMbps := 0 }

/-- `avail.cpu_mhz -= need.cpu_mhz` and its two siblings. -/
def Resources.decrement (avail need : Resources) : Resources :=
  { cpuMhz := avail.cpuMhz - need.cpuMhz
    memoryMb := avail.memoryMb - need.memoryMb
    networkMbps := avail.networkMbps - need.networkMbps }

/-- Free capacity on a node: total minus all live allocs placed on it. -/
def freeCapacity (node : Node) (state : StateStore) : Resources :=
  ((state.allocsByNode node.id).filter fun a => isLive a.clientStatus).foldl
    (fun free a => free.decrement a.resources) node.resources

section Ranking
variable (F : Type) [F64 F] [Crates]

def meetsConstraints (node : Node) (group : TaskGroup) : Bool :=
  group.constraints.all fun c => c.satisfiedBy node.attributes

def utilisation (total after : Int) : F :=
  if total > 0 then F64.ofInt (total - after) / F64.ofInt total else F64.ofInt 0

def scoreNode (node : Node) (free need : Resources) (group : TaskGroup) (spreadBonus : F) : F :=
  let affinity := group.affinities.foldl (fun (score : F) affinity =>
    if affinity.satisfiedBy node.attributes then score + F64.ofInt affinity.weight else score)
    (F64.ofInt 0)
  let after := free.decrement need
  let binPacked :=
    if after.cpuMhz > 0 || after.memoryMb > 0 || after.networkMbps > 0 then
      let utilCpu : F := utilisation F node.resources.cpuMhz after.cpuMhz
      let utilMem : F := utilisation F node.resources.memoryMb after.memoryMb
      let utilNet : F := utilisation F node.resources.networkMbps after.networkMbps
      let avgUtil := (utilCpu + utilMem + utilNet) / F64.ofInt 3
      affinity + avgUtil * F64.ofInt 50
    else affinity
  binPacked + spreadBonus

def spreadStep (node : Node) (state : StateStore) (bonus : F) (spread : Spread) : F :=
  match node.attributes.lookup spread.attr with
  | none => bonus
  | some attrVal =>
    let live := state.listAllocs.filter fun a => isLive a.clientStatus
    if live.length = 0 then bonus
    else
      let sameVal := (live.filter fun a => (state.getNode a.nodeId).any fun n =>
        n.attributes.lookup spread.attr == some attrVal).length
      let currentPct : F := F64.ofInt sameVal / F64.ofInt live.length * F64.ofInt 100
      let explicit := (spread.targets.filter fun t => t.value == attrVal).foldl
        (fun (sum : F) t => sum + F64.ofInt t.percent) (F64.ofInt 0)
      let targetPct : F :=
        if F64.lt (F64.ofInt 0) explicit then explicit
        else
          let uniqueVals :=
            max (state.listNodes.filterMap fun n => n.attributes.lookup spread.attr).dedup.length 1
          F64.ofInt 100 / F64.ofInt uniqueVals
      let deviation := currentPct - targetPct
      bonus - deviation * F64.ofInt 1

def bonusFor (group : TaskGroup) (node : Node) (state : StateStore) : F :=
  group.spreads.foldl (spreadStep F node state) (F64.ofInt 0)

end Ranking

def makeAlloc (eval : Evaluation) (plan : Plan) (job : Job) (group : TaskGroup)
    (need : Resources) (nodeId : NodeId) : Allocation where
  id := s!"{eval.id}-{plan.allocs.length}"
  evalId := eval.id
  nodeId := nodeId
  jobId := job.name
  taskGroup := group.name
  desiredStatus := .run
  clientStatus := .pending
  resources := need

abbrev FreeList := List (Node × Resources)

/-- Decrement the capacity of the first entry that `iter_mut().find` yields. -/
def FreeList.decrementFirst (p : Node × Resources → Bool) (need : Resources) : FreeList → FreeList
  | [] => []
  | (node, avail) :: rest =>
    if p (node, avail) then (node, avail.decrement need) :: rest
    else (node, avail) :: decrementFirst p need rest

section Placement
variable (F : Type) [F64 F] [Crates]

def hasRoom (group : TaskGroup) (need : Resources) (entry : Node × Resources) : Bool :=
  fits entry.2 need && meetsConstraints entry.1 group

/-- Fast path: first-fit with decrement, for the remaining number of instances. -/
def placeFirstFit (eval : Evaluation) (job : Job) (group : TaskGroup) (need : Resources) :
    Nat → FreeList × Plan → FreeList × Plan
  | 0, st => st
  | n + 1, (free, plan) =>
    match free.find? (hasRoom group need) with
    | none => (free, plan)
    | some (node, _) =>
      placeFirstFit eval job group need n
        (free.decrementFirst (hasRoom group need) need,
          plan.push (makeAlloc eval plan job group need node.id))

/-- The candidates of one round, best first. -/
def rank (state : StateStore) (group : TaskGroup) (need : Resources) (free : FreeList) :
    List (Candidate F) :=
  let scored := (free.zipIdx.filter fun e => hasRoom group need e.1).map fun ((node, avail), idx) =>
    { node, free := avail, order := idx
      score := scoreNode F node avail need group (bonusFor F group node state) : Candidate F }
  scored.insertionSort fun a b =>
    ((F64.totalCmp b.score a.score).then (compare a.order b.order)) ≠ .gt

/-- Scoring path: rank the candidates, try the best first. -/
def placeScored (eval : Evaluation) (state : StateStore) (job : Job) (group : TaskGroup)
    (need : Resources) : Nat → FreeList × Plan → FreeList × Plan
  | 0, st => st
  | n + 1, (free, plan) =>
    match (rank F state group need free).head? with
    | none => (free, plan)
    | some best =>
      match free.find? fun e => e.1.id == best.node.id with
      | none => placeScored eval state job group need n (free, plan)
      | some _ =>
        placeScored eval state job group need n
          (free.decrementFirst (fun e => e.1.id == best.node.id) need,
            plan.push (makeAlloc eval plan job group need best.node.id))

def placeGroup (eval : Evaluation) (state : StateStore) (job : Job) (st : FreeList × Plan)
    (group : TaskGroup) : FreeList × Plan :=
  let need := groupDemand group
  if group.affinities.isEmpty && group.spreads.isEmpty then
    placeFirstFit eval job group need (max group.count 0).toNat st
  else placeScored F eval state job group need (max group.count 0).toNat st

def initialFree (state : StateStore) : FreeList :=
  (state.listNodes.filter nodeEligible).map fun n => (n, freeCapacity n state)

def processEval (eval : Evaluation) (state : StateStore) : Plan :=
  match state.getJob eval.jobId with
  | none => {}
  | some job => (job.taskGroups.foldl (placeGroup F eval state job) (initialFree state, {})).2

/-- Total instances the eval's job wants placed; `0` if the job is unknown. -/
def desiredCount (eval : Evaluation) (state : StateStore) : Int :=
  match state.getJob eval.jobId with
  | none => 0
  | some job => (job.taskGroups.map fun g => max g.count 0).sum

def applyPlan (fsm : Fsm) : List Allocation → Result Unit × Fsm
  | [] => (.ok (), fsm)
  | alloc :: allocs =>
    match fsm.apply (.upsertAlloc alloc) with
    | (.error e, fsm') => (.error e, fsm')
    | (.ok _, fsm') => applyPlan fsm' allocs

def processAndApply (eval : Evaluation) (fsm : Fsm) : Result Plan × Fsm :=
  let plan := processEval F eval fsm.state
  match applyPlan fsm plan.allocs with
  | (.error e, fsm') => (.error e, fsm')
  | (.ok _, fsm') => (.ok plan, fsm')

end Placement
end NomadRs
