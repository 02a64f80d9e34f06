import NomadRs.Entities
import NomadRs.Transition

/-!
# The state store and the replicated state machine

`StateStore` holds the four maps of the cluster state; `Fsm.apply` runs one committed command on
them. Every mutation returns its result together with the store it leaves behind, so that "a
rejected command changes nothing" is a theorem about the code.

`StateStore.WellFormed` is the representation invariant: every entity is stored under its own
name or id and passes its check. `Fsm.apply` keeps it, so it holds after any sequence of commands.
-/

namespace NomadRs

structure StateStore where
  jobs : HashMap String Job := ∅
  nodes : HashMap NodeId Node := ∅
  allocs : HashMap AllocId Allocation := ∅
  evals : HashMap EvalId Evaluation := ∅

namespace StateStore

def new : StateStore := {}

def upsertJob (self : StateStore) (job : Job) : Result Unit × StateStore :=
  match job.validate with
  | .error e => (.error e, self)
  | .ok _ => (.ok (), { self with jobs := self.jobs.insert job.name job })

def getJob (self : StateStore) (name : String) : Option Job := self.jobs.lookup name

def deleteJob (self : StateStore) (name : String) : Result Unit × StateStore :=
  let self' := { self with jobs := self.jobs.erase name }
  if (self.jobs.lookup name).isNone then
    (.error (.validation s!"job '{name}' not found"), self')
  else (.ok (), self')

def upsertNode (self : StateStore) (node : Node) : Result Unit × StateStore :=
  match node.validate with
  | .error e => (.error e, self)
  | .ok _ => (.ok (), { self with nodes := self.nodes.insert node.id node })

def getNode (self : StateStore) (id : NodeId) : Option Node := self.nodes.lookup id

def listNodes (self : StateStore) : List Node := self.nodes.values

def upsertAlloc (self : StateStore) (alloc : Allocation) : Result Unit × StateStore :=
  match alloc.validate with
  | .error e => (.error e, self)
  | .ok _ => (.ok (), { self with allocs := self.allocs.insert alloc.id alloc })

def getAlloc (self : StateStore) (id : AllocId) : Option Allocation := self.allocs.lookup id

def listAllocs (self : StateStore) : List Allocation := self.allocs.values

def allocsByNode (self : StateStore) (nodeId : NodeId) : List Allocation :=
  self.allocs.values.filter fun a => a.nodeId == nodeId

def upsertEval (self : StateStore) (eval : Evaluation) : Result Unit × StateStore :=
  match eval.validate with
  | .error e => (.error e, self)
  | .ok _ => (.ok (), { self with evals := self.evals.insert eval.id eval })

/-- The same contents with the hash tables laid out differently. -/
structure Relayout (s s' : StateStore) : Prop where
  jobs : s.jobs.Relayout s'.jobs
  nodes : s.nodes.Relayout s'.nodes
  allocs : s.allocs.Relayout s'.allocs
  evals : s.evals.Relayout s'.evals

end StateStore

inductive Command
  | upsertJob (job : Job)
  | deregisterJob (name : String)
  | upsertNode (node : Node)
  | upsertAlloc (alloc : Allocation)
  | upsertEval (eval : Evaluation)

structure Fsm where
  state : StateStore := .new

def Fsm.new : Fsm := {}

def StateStore.apply (self : StateStore) : Command → Result Unit × StateStore
  | .upsertJob job => self.upsertJob job
  | .deregisterJob name => self.deleteJob name
  | .upsertNode node => self.upsertNode node
  | .upsertAlloc alloc => self.upsertAlloc alloc
  | .upsertEval eval => self.upsertEval eval

def Fsm.apply (self : Fsm) (command : Command) : Result Unit × Fsm :=
  let (result, state) := self.state.apply command
  (result, { self with state })

namespace StateStore

def applied (s : StateStore) : Command → StateStore
  | .upsertJob job => { s with jobs := s.jobs.insert job.name job }
  | .deregisterJob name => { s with jobs := s.jobs.erase name }
  | .upsertNode node => { s with nodes := s.nodes.insert node.id node }
  | .upsertAlloc alloc => { s with allocs := s.allocs.insert alloc.id alloc }
  | .upsertEval eval => { s with evals := s.evals.insert eval.id eval }

def Accepts (s : StateStore) : Command → Prop
  | .upsertJob job => job.validate = .ok ()
  | .deregisterJob name => (s.jobs.lookup name).isSome
  | .upsertNode node => node.validate = .ok ()
  | .upsertAlloc alloc => alloc.validate = .ok ()
  | .upsertEval eval => eval.validate = .ok ()

/-- A command either passes its check and is carried out, or fails and changes nothing. -/
theorem apply_cases (s : StateStore) (c : Command) :
    (s.Accepts c ∧ s.apply c = (.ok (), s.applied c)) ∨
      (¬ s.Accepts c ∧ ∃ e, s.apply c = (.error e, s)) := by
  cases c with
  | upsertJob job =>
      cases hv : job.validate <;> simp [apply, upsertJob, Accepts, applied, hv]
  | deregisterJob name =>
      cases hk : s.jobs.lookup name with
      | none => simp [apply, deleteJob, Accepts, hk, HashMap.erase_eq_self hk]
      | some job => simp [apply, deleteJob, Accepts, applied, hk]
  | upsertNode node =>
      cases hv : node.validate <;> simp [apply, upsertNode, Accepts, applied, hv]
  | upsertAlloc alloc =>
      cases hv : alloc.validate <;> simp [apply, upsertAlloc, Accepts, applied, hv]
  | upsertEval eval =>
      cases hv : eval.validate <;> simp [apply, upsertEval, Accepts, applied, hv]

theorem apply_error {s : StateStore} {c : Command} {e : Error} (h : (s.apply c).1 = .error e) :
    (s.apply c).2 = s := by
  rcases s.apply_cases c with ⟨_, hc⟩ | ⟨_, _, hc⟩
  · simp [hc] at h
  · rw [hc]

/-! ## The representation invariant -/

/-- Each entity is stored under its own key and passes its check. -/
structure WellFormed (s : StateStore) : Prop where
  jobs : ∀ k job, s.jobs.lookup k = some job → job.name = k ∧ job.validate = .ok ()
  nodes : ∀ k node, s.nodes.lookup k = some node → node.id = k ∧ node.validate = .ok ()
  allocs : ∀ k alloc, s.allocs.lookup k = some alloc → alloc.id = k ∧ alloc.validate = .ok ()
  evals : ∀ k eval, s.evals.lookup k = some eval → eval.id = k ∧ eval.validate = .ok ()

theorem WellFormed.new : WellFormed StateStore.new :=
  ⟨by simp [StateStore.new], by simp [StateStore.new], by simp [StateStore.new],
    by simp [StateStore.new]⟩

theorem keyed_insert {α : Type} (key : α → String) {ok : α → Prop} {m : HashMap String α}
    (hm : ∀ k a, m.lookup k = some a → key a = k ∧ ok a) {a : α} (ha : ok a) :
    ∀ k b, (m.insert (key a) a).lookup k = some b → key b = k ∧ ok b := by
  intro k b hb
  rcases HashMap.lookup_insert_eq_some.1 hb with ⟨rfl, rfl⟩ | ⟨_, hb⟩
  · exact ⟨rfl, ha⟩
  · exact hm k b hb

theorem WellFormed.applied {s : StateStore} {c : Command} (hs : s.WellFormed)
    (hc : s.Accepts c) : (s.applied c).WellFormed := by
  cases c with
  | upsertJob job => exact { hs with jobs := keyed_insert Job.name hs.jobs hc }
  | deregisterJob name =>
      exact { hs with jobs := fun k job h => hs.jobs k job (HashMap.lookup_erase_eq_some.1 h).2 }
  | upsertNode node => exact { hs with nodes := keyed_insert Node.id hs.nodes hc }
  | upsertAlloc alloc =>
      exact { hs with allocs := keyed_insert Allocation.id hs.allocs hc }
  | upsertEval eval => exact { hs with evals := keyed_insert Evaluation.id hs.evals hc }

theorem WellFormed.apply {s : StateStore} (hs : s.WellFormed) (c : Command) :
    (s.apply c).2.WellFormed := by
  rcases s.apply_cases c with ⟨hc, h⟩ | ⟨_, e, h⟩
  · rw [h]
    exact hs.applied hc
  · rw [h]
    exact hs

theorem WellFormed.relayout {s s' : StateStore} (hs : s.WellFormed) (h : s.Relayout s') :
    s'.WellFormed where
  jobs k job hk := hs.jobs k job (by rw [h.jobs.lookup_eq, hk])
  nodes k node hk := hs.nodes k node (by rw [h.nodes.lookup_eq, hk])
  allocs k alloc hk := hs.allocs k alloc (by rw [h.allocs.lookup_eq, hk])
  evals k eval hk := hs.evals k eval (by rw [h.evals.lookup_eq, hk])

theorem WellFormed.getNode_of_mem {s : StateStore} (hs : s.WellFormed) {node : Node}
    (h : node ∈ s.listNodes) : s.getNode node.id = some node := by
  obtain ⟨k, hk⟩ := HashMap.mem_values_iff.1 h
  rwa [(hs.nodes k node hk).1]

theorem WellFormed.mem_listAllocs_iff {s : StateStore} (hs : s.WellFormed) {a : Allocation} :
    a ∈ s.listAllocs ↔ s.getAlloc a.id = some a := by
  constructor
  · intro h
    obtain ⟨k, hk⟩ := HashMap.mem_values_iff.1 h
    rwa [← (hs.allocs k a hk).1] at hk
  · exact fun h => HashMap.mem_values_iff.2 ⟨_, h⟩

theorem nodup_of_keyed {α : Type} (key : α → String) {m : HashMap String α}
    (hm : ∀ k a, m.lookup k = some a → key a = k) : (m.values.map key).Nodup := by
  have heq : m.values.map key = m.keys := by
    simp only [HashMap.values, AList.keys, List.keys, List.map_map]
    apply List.map_congr_left
    rintro ⟨k, a⟩ hmem
    exact hm k a (AList.mem_lookup_iff.2 hmem)
  rw [heq]
  exact m.keys_nodup

theorem WellFormed.nodup_nodeIds {s : StateStore} (hs : s.WellFormed) :
    (s.listNodes.map Node.id).Nodup :=
  nodup_of_keyed Node.id fun k node h => (hs.nodes k node h).1

theorem WellFormed.nodup_allocIds {s : StateStore} (hs : s.WellFormed) :
    (s.listAllocs.map Allocation.id).Nodup :=
  nodup_of_keyed Allocation.id fun k a h => (hs.allocs k a h).1

end StateStore

theorem Fsm.apply_cases (fsm : Fsm) (c : Command) :
    (fsm.state.Accepts c ∧ fsm.apply c = (.ok (), ⟨fsm.state.applied c⟩)) ∨
      (¬ fsm.state.Accepts c ∧ ∃ e, fsm.apply c = (.error e, fsm)) := by
  rcases fsm.state.apply_cases c with ⟨hc, h⟩ | ⟨hc, e, h⟩
  · exact .inl ⟨hc, by simp only [apply, h]⟩
  · exact .inr ⟨hc, e, by simp only [apply, h]⟩

/-! ## Any sequence of commands -/

/-- A command, accepted or rejected; `relayout` lets iteration orders change. -/
inductive StoreEvent
  | apply (c : Command)
  | relayout

inductive StoreStep : Fsm → StoreEvent → Fsm → Prop
  | apply (fsm : Fsm) (c : Command) : StoreStep fsm (.apply c) (fsm.apply c).2
  | relayout (fsm fsm' : Fsm) :
      fsm.state.Relayout fsm'.state → StoreStep fsm .relayout fsm'

def storeSystem : System Fsm StoreEvent where
  start fsm := fsm = .new
  step := StoreStep

theorem Fsm.wellFormed_of_reachable {fsm : Fsm} (h : storeSystem.Reachable fsm) :
    fsm.state.WellFormed := by
  refine h.invariant (fun fsm => fsm.state.WellFormed) ?_ fun fsm event fsm' hs _ hstep => ?_
  · rintro _ rfl
    exact .new
  · cases hstep with
    | apply c => exact hs.apply c
    | relayout _ hr => exact hs.relayout hr

namespace Fsm

def applyAll (fsm : Fsm) (cs : List Command) : Fsm := cs.foldl (fun fsm c => (fsm.apply c).2) fsm

theorem reachable_applyAll {fsm : Fsm} (h : storeSystem.Reachable fsm) (cs : List Command) :
    storeSystem.Reachable (fsm.applyAll cs) := by
  induction cs generalizing fsm with
  | nil => exact h
  | cons c cs ih => exact ih (h.next (.apply fsm c))

def registered (nodes : List Node) (job : Job) : Fsm :=
  Fsm.new.applyAll (nodes.map .upsertNode ++ [.upsertJob job])

theorem registered_reachable (nodes : List Node) (job : Job) :
    storeSystem.Reachable (registered nodes job) := reachable_applyAll (.start rfl) _

end Fsm
end NomadRs
