import NomadRs.ClientState

/-!
# Deleting client state

`delete_alloc` takes an allocation's task states with one statement and its row with another. In
between its process may die, the second statement may fail, and another connection to the file may
set a task state, which then keeps the row. `deletion_atomic_iff` says in which runs every call
deletes all or nothing.
-/

open Sql

namespace NomadRs
namespace ClientState

def taskRows (db : ClientDb) (allocId : AllocId) : List Row :=
  (db.tables .taskStates).values.filter fun row => row "alloc_id" = some (.text allocId)

def allocRows (db : ClientDb) (allocId : AllocId) : List Row :=
  (db.tables .allocations).values.filter fun row => row "id" = some (.text allocId)

def rowsOf (db : ClientDb) (allocId : AllocId) : List Row :=
  allocRows db allocId ++ taskRows db allocId

/-! ## The two statements -/

variable {db db' : ClientDb} {allocId : AllocId} {fault : Bool}

theorem taskRows_deleteStates
    (h : execute db (deleteStatesStatement allocId) fault = (.ok (), db')) :
    taskRows db' allocId = [] := by
  rw [taskRows, taskStates_deleteStates h]
  exact values_deleteRows_filter _ _ _

theorem allocRows_deleteStates
    (h : execute db (deleteStatesStatement allocId) fault = (.ok (), db')) :
    allocRows db' allocId = allocRows db allocId := by
  rw [allocRows, allocations_deleteStates h, allocRows]

/-- The first statement leaves the rows as they were only if there was no task state. -/
theorem rowsOf_deleteStates
    (h : execute db (deleteStatesStatement allocId) fault = (.ok (), db')) :
    rowsOf db' allocId = rowsOf db allocId ↔ taskRows db allocId = [] := by
  rw [rowsOf, rowsOf, allocRows_deleteStates h, taskRows_deleteStates h, List.append_cancel_left_eq,
    eq_comm]

theorem isSome_exec_deleteRow :
    (db.exec (deleteRowStatement allocId)).isSome ↔ taskRows db allocId = [] := by
  have hkeyed : Keyed ["id"] (db.tables .allocations) := db.keyed .allocations
  have hstates : (deleteRowStatement allocId).effect clientSchema db.tables .taskStates =
      db.tables .taskStates := effect_delete_of_ne (by decide)
  have hallocs : (deleteRowStatement allocId).effect clientSchema db.tables .allocations =
      deleteRows "id" (.text allocId) (db.tables .allocations) := effect_delete_self
  have hrefers (row : Row) (hrow : row ∈ (db.tables .taskStates).values) :
      ((db.tables .allocations).lookup [row "alloc_id"]).isSome :=
    db.consistent _ List.mem_cons_self row hrow
  rw [Database.isSome_exec_iff, taskRows, List.filter_eq_nil_iff]
  constructor
  · intro hconsistent row hrow
    have htarget := hconsistent _ List.mem_cons_self row (by rw [hstates]; exact hrow)
    rw [hallocs] at htarget
    simpa using ((isSome_lookup_deleteRows hkeyed).1 htarget).2
  · intro hfree fk hfk row hrow
    obtain rfl := List.mem_singleton.1 hfk
    rw [hstates] at hrow
    rw [hallocs]
    exact (isSome_lookup_deleteRows hkeyed).2 ⟨hrefers row hrow, by simpa using hfree row hrow⟩

theorem isOk_deleteRow :
    (execute db (deleteRowStatement allocId) fault).1.isOk ↔
      fault = false ∧ taskRows db allocId = [] := by
  rw [← isSome_exec_deleteRow, execute]
  cases fault <;> cases db.exec (deleteRowStatement allocId) <;> simp [Except.isOk, Except.toBool]

theorem rowsOf_deleteRow
    (h : execute db (deleteRowStatement allocId) fault = (.ok (), db')) :
    rowsOf db' allocId = [] := by
  have hfree : taskRows db allocId = [] :=
    ((@isOk_deleteRow db allocId fault).1 (by rw [h]; rfl)).2
  have hallocs : allocRows db' allocId = [] := by
    rw [allocRows, allocations_deleteRow h]
    exact values_deleteRows_filter _ _ _
  have hstates : taskRows db' allocId = taskRows db allocId := by
    rw [taskRows, taskStates_deleteRow h, taskRows]
  rw [rowsOf, hallocs, hstates, hfree, List.append_nil]

theorem execute_eq_error {statement : Statement ClientTable} {e : Error}
    (h : execute db statement fault = (.error e, db')) : db' = db := by
  unfold execute at h
  split at h
  · cases h
    rfl
  · split at h
    · cases h
    · cases h
      rfl

/-! ## Calls on several connections -/

/-- A call of `delete_alloc` whose first statement has been run on the database `found` and has left
`rest`. -/
structure Deletion where
  allocId : AllocId
  found : ClientDb
  rest : ClientDb
  deleted : ∃ fault, execute found (deleteStatesStatement allocId) fault = (.ok (), rest)

/-- A call that is over, on the database `last`: what its first statement found and left, and
whether both statements have succeeded. -/
structure EndedDeletion where
  allocId : AllocId
  found : ClientDb
  rest : ClientDb
  completed : Bool
  last : ClientDb

/-- No row of the allocation is left, or the call has deleted none. -/
def EndedDeletion.Atomic (d : EndedDeletion) : Prop :=
  if d.completed then rowsOf d.last d.allocId = []
  else rowsOf d.rest d.allocId = rowsOf d.found d.allocId

/-- A database file with the calls of `delete_alloc` in progress on each connection. `ended` is not
part of the source: it records the calls that are over. -/
structure Connections where
  db : ClientDb
  deletions : ℕ → Option Deletion := fun _ => none
  ended : List EndedDeletion := []

/-- A statement on any connection, or the end of the process that has one. -/
inductive ConnectionEvent
  | upsertAlloc (alloc : Allocation) (fault : Bool)
  | setTaskState (allocId : AllocId) (taskName : String) (state : TaskState) (restartCount : ℕ)
      (fault : Bool)
  | deleteStates (connection : ℕ) (allocId : AllocId) (fault : Bool)
  | deleteRow (connection : ℕ) (fault : Bool)
  | die (connection : ℕ)

namespace Connections

def finish (self : Connections) (connection : ℕ) (d : Deletion) (completed : Bool)
    (db : ClientDb) : Connections where
  db := db
  deletions := Function.update self.deletions connection none
  ended := self.ended ++ [⟨d.allocId, d.found, d.rest, completed, db⟩]

/-- A connection begins no deletion while it has one in progress. -/
def next (self : Connections) : ConnectionEvent → Option Connections
  | .upsertAlloc alloc fault => some { self with db := (upsertAlloc self.db alloc fault).2 }
  | .setTaskState allocId taskName state restartCount fault =>
    some { self with db := (setTaskState self.db allocId taskName state restartCount fault).2 }
  | .deleteStates connection allocId fault =>
    match self.deletions connection, h : execute self.db (deleteStatesStatement allocId) fault with
    | some _, _ => none
    | none, (.error _, db) =>
      some { self with db, ended := self.ended ++ [⟨allocId, self.db, db, false, db⟩] }
    | none, (.ok (), db) =>
      some { self with
        db
        deletions :=
          Function.update self.deletions connection (some ⟨allocId, self.db, db, fault, h⟩) }
  | .deleteRow connection fault =>
    match self.deletions connection with
    | none => none
    | some d =>
      match execute self.db (deleteRowStatement d.allocId) fault with
      | (.error _, db) => some (self.finish connection d false db)
      | (.ok (), db) => some (self.finish connection d true db)
  | .die connection =>
    match self.deletions connection with
    | none => some self
    | some d => some (self.finish connection d false self.db)

/-- A call whose first statement has deleted something is not interrupted: its process lives on,
its second statement does not fail by itself, and no task state of the allocation has been set
meanwhile that is still there. -/
def Undisturbed (s : Connections) : ConnectionEvent → Prop
  | .deleteRow connection fault => ∀ d, s.deletions connection = some d →
      taskRows d.found d.allocId ≠ [] → fault = false ∧ taskRows s.db d.allocId = []
  | .die connection => ∀ d, s.deletions connection = some d → taskRows d.found d.allocId = []
  | .upsertAlloc .. | .setTaskState .. | .deleteStates .. => True

def AllAtomic (s : Connections) : Prop := ∀ d ∈ s.ended, d.Atomic

variable {s s' : Connections} {connection : ℕ} {d : Deletion}

theorem allAtomic_append {s : Connections} {d : EndedDeletion} (h : s'.ended = s.ended ++ [d]) :
    s'.AllAtomic ↔ s.AllAtomic ∧ d.Atomic := by
  rw [AllAtomic, h, List.forall_mem_append, List.forall_mem_singleton, AllAtomic]

theorem allAtomic_finish_false {db : ClientDb} :
    (s.finish connection d false db).AllAtomic ↔
      s.AllAtomic ∧ taskRows d.found d.allocId = [] := by
  obtain ⟨_, hdeleted⟩ := d.deleted
  rw [allAtomic_append rfl, EndedDeletion.Atomic, if_neg (by simp), rowsOf_deleteStates hdeleted]

theorem allAtomic_finish_true {db : ClientDb} {fault : Bool}
    (h : execute s.db (deleteRowStatement d.allocId) fault = (.ok (), db)) :
    (s.finish connection d true db).AllAtomic ↔ s.AllAtomic := by
  rw [allAtomic_append rfl, EndedDeletion.Atomic, if_pos rfl]
  exact and_iff_left (rowsOf_deleteRow h)

theorem next_deleteStates {allocId : AllocId} {fault : Bool}
    (h : s.next (.deleteStates connection allocId fault) = some s') :
    s'.AllAtomic ↔ s.AllAtomic := by
  simp only [next] at h
  split at h
  · cases h
  next herror =>
    cases h
    rw [allAtomic_append rfl, EndedDeletion.Atomic, if_neg (by simp), execute_eq_error herror]
    exact and_iff_left rfl
  · cases h
    rfl

theorem next_deleteRow {fault : Bool} (h : s.next (.deleteRow connection fault) = some s') :
    s'.AllAtomic ↔ s.AllAtomic ∧ s.Undisturbed (.deleteRow connection fault) := by
  simp only [next] at h
  split at h
  · cases h
  next d hd =>
    simp only [Undisturbed, hd, Option.some.injEq, forall_eq']
    split at h
    next herror =>
      cases h
      rw [allAtomic_finish_false, ← isOk_deleteRow, herror]
      simp [Except.isOk, Except.toBool]
    next hok =>
      cases h
      rw [allAtomic_finish_true hok, ← isOk_deleteRow, hok]
      simp [Except.isOk, Except.toBool]

theorem next_die (h : s.next (.die connection) = some s') :
    s'.AllAtomic ↔ s.AllAtomic ∧ s.Undisturbed (.die connection) := by
  simp only [next] at h
  split at h
  next hd =>
    cases h
    simp [Undisturbed, hd]
  next d hd =>
    cases h
    rw [allAtomic_finish_false]
    simp only [Undisturbed, hd, Option.some.injEq, forall_eq']

theorem next_allAtomic {e : ConnectionEvent} (h : s.next e = some s') :
    s'.AllAtomic ↔ s.AllAtomic ∧ s.Undisturbed e := by
  cases e with
  | upsertAlloc alloc fault =>
      cases h
      exact (and_iff_left trivial).symm
  | setTaskState allocId taskName state restartCount fault =>
      cases h
      exact (and_iff_left trivial).symm
  | deleteStates connection allocId fault =>
      rw [next_deleteStates h]
      exact (and_iff_left trivial).symm
  | deleteRow connection fault => exact next_deleteRow h
  | die connection => exact next_die h

theorem next_deleteStates_of_ok {allocId : AllocId} {fault : Bool} {rest : ClientDb}
    (hidle : s.deletions connection = none)
    (hfirst : execute s.db (deleteStatesStatement allocId) fault = (.ok (), rest)) :
    s.next (.deleteStates connection allocId fault) = some { s with
      db := rest
      deletions := Function.update s.deletions connection
        (some ⟨allocId, s.db, rest, fault, hfirst⟩) } := by
  simp only [next]
  split
  next hbusy => simp [hidle] at hbusy
  next herror => simp [hfirst] at herror
  next hok =>
    obtain rfl := (Prod.ext_iff.1 (hfirst.symm.trans hok)).2
    rfl

theorem exec_deleteAlloc {allocId : AllocId} {fault fault' : Bool} {rest : ClientDb}
    (hidle : s.deletions connection = none)
    (hfirst : execute s.db (deleteStatesStatement allocId) fault = (.ok (), rest)) :
    ∃ t, System.exec next s [.deleteStates connection allocId fault, .deleteRow connection fault'] =
      some t ∧ t.db = (deleteAlloc s.db allocId fault fault').2 := by
  rw [System.exec, next_deleteStates_of_ok hidle hfirst, Option.bind_some, System.exec, deleteAlloc,
    hfirst]
  simp only [next, Function.update_self]
  split <;> exact ⟨_, rfl, by simp [finish, *]⟩

end Connections

/-- Whatever file the connections are opened on and in whatever order their statements come, every
`delete_alloc` deletes all of an allocation or nothing exactly if no call is disturbed. -/
theorem deletion_atomic_iff (db : ClientDb) {events : List ConnectionEvent} {s : Connections}
    (h : System.exec Connections.next { db } events = some s) :
    (∀ d ∈ s.ended, d.Atomic) ↔
      System.AllAllowed Connections.next Connections.Undisturbed { db } events := by
  have hstart : Connections.AllAtomic { db } := fun d hd => by cases hd
  exact (System.exec_iff_allAllowed (fun _ _ _ => Connections.next_allAtomic) h).trans
    (and_iff_right hstart)

def deletionRun (e : ConnectionEvent) : List ConnectionEvent :=
  [.upsertAlloc (storedAlloc .running) false, .setTaskState "a1" "redis" .running 0 false,
    .deleteStates 0 "a1" false, e]

theorem deletion_atomic_iff_completed :
    ∃ s, System.exec Connections.next { db := .empty } (deletionRun (.deleteRow 0 false)) = some s ∧
      s.ended.map EndedDeletion.completed = [true] ∧ ∀ d ∈ s.ended, d.Atomic := by
  have hrun : (System.exec Connections.next { db := .empty }
      (deletionRun (.deleteRow 0 false))).any fun s =>
        s.ended.map EndedDeletion.completed == [true] := by decide
  obtain ⟨s, hs, hended⟩ := (Option.any_eq_true _ _).1 hrun
  refine ⟨s, hs, beq_iff_eq.1 hended, (deletion_atomic_iff .empty hs).2 ?_⟩
  refine ⟨trivial, fun s₁ h₁ => ⟨trivial, fun s₂ h₂ => ⟨trivial, fun s₃ h₃ =>
    ⟨fun d hd _ => ⟨rfl, ?_⟩, fun _ _ => trivial⟩⟩⟩⟩
  cases h₁
  cases h₂
  cases h₃
  cases hd
  exact List.isEmpty_iff.1 (by decide)

/-- A process that dies between the two statements leaves the allocation without its task
states. -/
theorem deletion_interrupted : ¬ ∀ (db : ClientDb) (events : List ConnectionEvent)
    (s : Connections), System.exec Connections.next { db } events = some s →
      ∀ d ∈ s.ended, d.Atomic := by
  intro h
  have hrun : (System.exec Connections.next { db := .empty } (deletionRun (.die 0))).any fun s =>
      s.ended.any fun d => !d.completed &&
        (rowsOf d.rest d.allocId).length != (rowsOf d.found d.allocId).length := by decide
  obtain ⟨s, hs, hended⟩ := (Option.any_eq_true _ _).1 hrun
  obtain ⟨d, hd, hlost⟩ := List.any_eq_true.1 hended
  simp only [Bool.and_eq_true, Bool.not_eq_true', bne_iff_ne] at hlost
  have hatomic := h .empty _ s hs d hd
  rw [EndedDeletion.Atomic, if_neg (by simp [hlost.1])] at hatomic
  exact hlost.2 (by rw [hatomic])

end ClientState
end NomadRs
