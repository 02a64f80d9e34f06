import NomadRs.LastWrite
import NomadRs.Raft

/-!
# What a log leaves in the state store

A command is about one job, node, allocation or evaluation. It writes that entity, or nothing if it
is rejected for what it carries; removing a job that is not there writes what is there already. So
the state store is a `KeyedStore`, and after any log each entity is what the last valid command
about it made of it. Commands about different entities may come in any order
(`state_is_last_writes`).
-/

namespace NomadRs

inductive EntityKey
  | job (name : String)
  | node (id : NodeId)
  | alloc (id : AllocId)
  | eval (id : EvalId)
  deriving DecidableEq

inductive Entity
  | job (job : Job)
  | node (node : Node)
  | alloc (alloc : Allocation)
  | eval (eval : Evaluation)

def StateStore.read (self : StateStore) : EntityKey → Option Entity
  | .job name => (self.getJob name).map .job
  | .node id => (self.getNode id).map .node
  | .alloc id => (self.getAlloc id).map .alloc
  | .eval id => (self.evals.lookup id).map .eval

namespace Command

def key : Command → EntityKey
  | .upsertJob job => .job job.name
  | .deregisterJob name => .job name
  | .upsertNode node => .node node.id
  | .upsertAlloc alloc => .alloc alloc.id
  | .upsertEval eval => .eval eval.id

def check : Command → Result Unit
  | .upsertJob job => job.validate
  | .deregisterJob _ => .ok ()
  | .upsertNode node => node.validate
  | .upsertAlloc alloc => alloc.validate
  | .upsertEval eval => eval.validate

def value : Command → Option Entity
  | .upsertJob job => some (.job job)
  | .deregisterJob _ => none
  | .upsertNode node => some (.node node)
  | .upsertAlloc alloc => some (.alloc alloc)
  | .upsertEval eval => some (.eval eval)

/-- The entity a command writes, if its check passes. -/
def target (c : Command) : Option EntityKey :=
  match c.check with
  | .ok _ => some c.key
  | .error _ => none

theorem target_eq_some {c : Command} {k : EntityKey} :
    c.target = some k ↔ c.check = .ok () ∧ c.key = k := by
  rw [target]
  cases c.check <;> simp

end Command

namespace StateStore

theorem accepts_iff {s : StateStore} {c : Command} :
    s.Accepts c ↔ c.check = .ok () ∧ ∀ name, c = .deregisterJob name → (s.getJob name).isSome := by
  cases c <;> simp [Accepts, Command.check, getJob]

theorem read_applied_key (s : StateStore) (c : Command) : (s.applied c).read c.key = c.value := by
  cases c <;> simp [read, applied, Command.key, Command.value, getJob, getNode, getAlloc]

theorem read_applied_of_ne {s : StateStore} {c : Command} {k : EntityKey} (h : c.key ≠ k) :
    (s.applied c).read k = s.read k := by
  cases c <;> cases k <;> try rfl
  all_goals refine congrArg (Option.map _) ?_
  case deregisterJob.job name name' =>
    exact AList.lookup_erase_ne fun heq => h (congrArg EntityKey.job heq.symm)
  all_goals exact AList.lookup_insert_ne fun heq => h (by rw [heq]; rfl)

theorem relayout_of_read {s s' : StateStore} (h : ∀ k, s.read k = s'.read k) : s.Relayout s' where
  jobs := HashMap.relayout_of_lookup fun name =>
    Option.map_injective (fun _ _ => Entity.job.inj) (h (.job name))
  nodes := HashMap.relayout_of_lookup fun id =>
    Option.map_injective (fun _ _ => Entity.node.inj) (h (.node id))
  allocs := HashMap.relayout_of_lookup fun id =>
    Option.map_injective (fun _ _ => Entity.alloc.inj) (h (.alloc id))
  evals := HashMap.relayout_of_lookup fun id =>
    Option.map_injective (fun _ _ => Entity.eval.inj) (h (.eval id))

theorem Relayout.read_eq {s s' : StateStore} (h : s.Relayout s') (k : EntityKey) :
    s.read k = s'.read k := by
  cases k with
  | job name => exact congrArg (Option.map _) (h.jobs.lookup_eq name)
  | node id => exact congrArg (Option.map _) (h.nodes.lookup_eq id)
  | alloc id => exact congrArg (Option.map _) (h.allocs.lookup_eq id)
  | eval id => exact congrArg (Option.map _) (h.evals.lookup_eq id)

/-- The state store as a store whose commands each write one entity. -/
def keyed : KeyedStore StateStore Command EntityKey Entity where
  read := read
  apply s c := (s.apply c).2
  target := Command.target
  value := Command.value
  read_apply s c k hk := by
    obtain ⟨hcheck, rfl⟩ := Command.target_eq_some.1 hk
    rcases s.apply_cases c with ⟨_, happly⟩ | ⟨hrejected, e, happly⟩ <;> rw [happly]
    · exact s.read_applied_key c
    · -- only the removal of a job that is not there is rejected although its check passes
      rw [accepts_iff] at hrejected
      push Not at hrejected
      obtain ⟨name, rfl, hnone⟩ := hrejected hcheck
      change (s.getJob name).map _ = none
      rw [Option.map_eq_none_iff]
      simpa using hnone
  read_apply_of_ne s c k hk := by
    rcases s.apply_cases c with ⟨haccepts, happly⟩ | ⟨_, e, happly⟩ <;> rw [happly]
    have hcheck := (accepts_iff.1 haccepts).1
    exact read_applied_of_ne fun hkey => hk (Command.target_eq_some.2 ⟨hcheck, hkey⟩)

def writesOf (k : EntityKey) (cs : List Command) : List Command := keyed.writes k cs

end StateStore

open StateStore

theorem Fsm.state_applyAll (fsm : Fsm) (cs : List Command) :
    (fsm.applyAll cs).state = keyed.applyAll fsm.state cs := by
  induction cs generalizing fsm with
  | nil => rfl
  | cons c cs ih => exact ih _

/-- After any sequence of commands, accepted and rejected, each entity is what the last valid
command about it made of it, and if there was none it is untouched. So the order of commands about
different entities makes no difference. -/
theorem state_is_last_writes (fsm : Fsm) (cs : List Command) :
    (∀ k, (fsm.applyAll cs).state.read k =
      ((writesOf k cs).getLast?.map Command.value).getD (fsm.state.read k)) ∧
    ∀ cs', (∀ k, writesOf k cs' = writesOf k cs) →
      (fsm.applyAll cs).state.Relayout (fsm.applyAll cs').state := by
  simp only [Fsm.state_applyAll]
  refine ⟨keyed.read_applyAll fsm.state cs, fun cs' hwrites => relayout_of_read fun k => ?_⟩
  exact keyed.read_eq_of_writes rfl (hwrites k).symm

theorem state_is_last_writes_swapped :
    let jobFirst := Fsm.new.applyAll [.upsertJob (webJob 1), .upsertNode oneNode]
    let nodeFirst := Fsm.new.applyAll
      [.upsertNode oneNode, .upsertJob { webJob 2 with name := "" }, .upsertJob (webJob 1)]
    jobFirst.state.read (.job "web") = some (.job (webJob 1)) ∧
      jobFirst.state.Relayout nodeFirst.state := by
  have hjob : (Command.upsertJob (webJob 1)).target = some (.job "web") := by decide
  have hnode : (Command.upsertNode oneNode).target = some (.node "node-1") := by decide
  have hrejected : (Command.upsertJob { webJob 2 with name := "" }).target = none := by decide
  obtain ⟨hread, hrelayout⟩ :=
    state_is_last_writes .new [.upsertJob (webJob 1), .upsertNode oneNode]
  refine ⟨(hread (.job "web")).trans ?_, hrelayout _ fun k => ?_⟩
  · simp [writesOf, KeyedStore.writes, keyed, hjob, hnode, Command.value]
  · simp only [writesOf, KeyedStore.writes, keyed, List.filter_cons, hjob, hnode, hrejected]
    by_cases hk : k = .job "web"
    · simp [hk]
    · simp [Ne.symm hk]

end NomadRs
