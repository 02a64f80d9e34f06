import NomadRs.Driver
import NomadRs.Entities
import NomadRs.Sql
import NomadRs.Transition

/-!
# The state of a client

`ClientState` keeps the allocations of a node and the states of their tasks in two SQL tables. The
operations are statements with columns and values as the source lists them; `fault` says whether a
statement fails for a reason outside the tables, such as a busy or unreadable file.

Read back, the allocations are a map from ids to what was last written under them:
`client_state_faithful`.
-/

open Sql

namespace NomadRs

inductive ClientTable
  | allocations | taskStates
  deriving DecidableEq

/-- The schema of `ClientState::open`, which creates the tables if there are none. -/
def clientSchema : Schema ClientTable where
  key
    | .allocations => ["id"]
    | .taskStates => ["alloc_id", "task_name"]
  foreignKeys := [{ child := .taskStates, columns := ["alloc_id"], parent := .allocations }]

/-- A database file, as any connection to it finds it. -/
abbrev ClientDb := Database clientSchema

def TaskState.asStr : TaskState → String
  | .pending => "pending"
  | .running => "running"
  | .exited => "exited"
  | .failed => "failed"
  | .unknown => "unknown"

def parseDesiredStatus : String → DesiredStatus
  | "stop" => .stop
  | "evict" => .evict
  | _ => .run

def parseClientStatus : String → ClientStatus
  | "running" => .running
  | "complete" => .complete
  | "failed" => .failed
  | "lost" => .lost
  | _ => .pending

theorem parseDesiredStatus_asStr (status : DesiredStatus) :
    parseDesiredStatus status.asStr = status := by cases status <;> rfl

theorem parseClientStatus_asStr (status : ClientStatus) :
    parseClientStatus status.asStr = status := by cases status <;> rfl

/-! ## The statements -/

namespace ClientState

def upsertAllocStatement (alloc : Allocation) : Statement ClientTable :=
  .upsert .allocations
    ["id", "eval_id", "node_id", "job_id", "task_group", "desired_status", "client_status",
      "cpu_mhz", "memory_mb", "network_mbps"]
    [.text alloc.id, .text alloc.evalId, .text alloc.nodeId, .text alloc.jobId,
      .text alloc.taskGroup, .text alloc.desiredStatus.asStr, .text alloc.clientStatus.asStr,
      .integer alloc.resources.cpuMhz, .integer alloc.resources.memoryMb,
      .integer alloc.resources.networkMbps]
    ["eval_id", "node_id", "job_id", "task_group", "desired_status", "client_status", "cpu_mhz",
      "memory_mb", "network_mbps"]

def setTaskStateStatement (allocId : AllocId) (taskName : String) (state : TaskState)
    (restartCount : ℕ) : Statement ClientTable :=
  .upsert .taskStates ["alloc_id", "task_name", "state", "restart_count"]
    [.text allocId, .text taskName, .text state.asStr, .integer restartCount]
    ["state", "restart_count"]

def deleteStatesStatement (allocId : AllocId) : Statement ClientTable :=
  .delete .taskStates "alloc_id" (.text allocId)

def deleteRowStatement (allocId : AllocId) : Statement ClientTable :=
  .delete .allocations "id" (.text allocId)

def execute (self : ClientDb) (statement : Statement ClientTable) (fault : Bool) :
    Result Unit × ClientDb :=
  if fault then (.error (.database .failure), self)
  else
    match self.exec statement with
    | some db => (.ok (), db)
    | none => (.error (.database .foreignKey), self)

/-! ## The operations -/

def upsertAlloc (self : ClientDb) (alloc : Allocation) (fault : Bool) : Result Unit × ClientDb :=
  execute self (upsertAllocStatement alloc) fault

def setTaskState (self : ClientDb) (allocId : AllocId) (taskName : String) (state : TaskState)
    (restartCount : ℕ) (fault : Bool) : Result Unit × ClientDb :=
  execute self (setTaskStateStatement allocId taskName state restartCount) fault

def deleteAlloc (self : ClientDb) (allocId : AllocId) (fault fault' : Bool) :
    Result Unit × ClientDb :=
  match execute self (deleteStatesStatement allocId) fault with
  | (.error e, db) => (.error e, db)
  | (.ok _, db) => execute db (deleteRowStatement allocId) fault'

def getText (row : List (Option Value)) (index : ℕ) : Result String :=
  match row[index]? with
  | some (some (.text s)) => .ok s
  | _ => .error (.database (.invalidColumnType index))

def getI32 (row : List (Option Value)) (index : ℕ) : Result Int :=
  match row[index]? with
  | some (some (.integer n)) =>
    if I32 n then .ok n else .error (.database (.outOfRange index))
  | _ => .error (.database (.invalidColumnType index))

/-- The closure that `list_allocs` maps over the rows. -/
def readAlloc (row : List (Option Value)) : Result Allocation := do
  let ds ← getText row 5
  let cs ← getText row 6
  let id ← getText row 0
  let evalId ← getText row 1
  let nodeId ← getText row 2
  let jobId ← getText row 3
  let taskGroup ← getText row 4
  let cpuMhz ← getI32 row 7
  let memoryMb ← getI32 row 8
  let networkMbps ← getI32 row 9
  return {
    id, evalId, nodeId, jobId, taskGroup
    desiredStatus := parseDesiredStatus ds
    clientStatus := parseClientStatus cs
    resources := { cpuMhz, memoryMb, networkMbps } }

def selected : List String :=
  ["id", "eval_id", "node_id", "job_id", "task_group", "desired_status", "client_status",
    "cpu_mhz", "memory_mb", "network_mbps"]

/-- The rows come in the order in which the table lists them. -/
def listAllocs (self : ClientDb) : Result (List Allocation) :=
  ((self.tables .allocations).values.map fun row => row.select selected).mapM readAlloc

/-! ## A map of allocations -/

def allocRow (a : Allocation) : List (Option Value) :=
  [some (.text a.id), some (.text a.evalId), some (.text a.nodeId), some (.text a.jobId),
    some (.text a.taskGroup), some (.text a.desiredStatus.asStr),
    some (.text a.clientStatus.asStr), some (.integer a.resources.cpuMhz),
    some (.integer a.resources.memoryMb), some (.integer a.resources.networkMbps)]

def idKey (id : AllocId) : List (Option Value) := [some (.text id)]

theorem idKey_inj {id id' : AllocId} : idKey id = idKey id' ↔ id = id' := by simp [idKey]

theorem readAlloc_allocRow {a : Allocation} (h : a.resources.I32) :
    readAlloc (allocRow a) = .ok a := by
  obtain ⟨hcpu, hmem, hnet⟩ := Resources.i32_iff.1 h
  simp [readAlloc, allocRow, getText, getI32, hcpu, hmem, hnet, parseDesiredStatus_asStr,
    parseClientStatus_asStr, bind, Except.bind, pure, Except.pure]

def insertedAlloc (a : Allocation) : Row :=
  inserted selected [.text a.id, .text a.evalId, .text a.nodeId, .text a.jobId,
    .text a.taskGroup, .text a.desiredStatus.asStr, .text a.clientStatus.asStr,
    .integer a.resources.cpuMhz, .integer a.resources.memoryMb, .integer a.resources.networkMbps]

theorem select_insertedAlloc (a : Allocation) : (insertedAlloc a).select selected = allocRow a :=
  rfl

def updated : List String :=
  ["eval_id", "node_id", "job_id", "task_group", "desired_status", "client_status", "cpu_mhz",
    "memory_mb", "network_mbps"]

theorem select_update {a : Allocation} {old : Row} (h : old "id" = some (.text a.id)) :
    (old.update updated (insertedAlloc a)).select selected = allocRow a := by
  rw [← select_insertedAlloc, Row.select, Row.select]
  refine List.map_congr_left fun column hcolumn => ?_
  rw [Row.update]
  split
  next => rfl
  next hkept =>
    obtain rfl : column = "id" := by
      simp only [selected, List.mem_cons] at hcolumn
      simp only [updated, List.mem_cons] at hkept
      tauto
    exact h

/-! ## Runs -/

inductive ClientCall
  | upsertAlloc (alloc : Allocation)
  | setTaskState (allocId : AllocId) (taskName : String) (state : TaskState) (restartCount : ℕ)
  | deleteAlloc (allocId : AllocId)
  | reopen

/-- A call that succeeds. Reopening the file finds the same rows, in whatever order. -/
inductive ClientStep : ClientDb → ClientCall → ClientDb → Prop
  | upsertAlloc {db db' : ClientDb} {alloc : Allocation} {fault : Bool} :
      alloc.resources.I32 → upsertAlloc db alloc fault = (.ok (), db') →
        ClientStep db (.upsertAlloc alloc) db'
  | setTaskState {db db' : ClientDb} {allocId : AllocId} {taskName : String} {state : TaskState}
      {restartCount : ℕ} {fault : Bool} :
      setTaskState db allocId taskName state restartCount fault = (.ok (), db') →
        ClientStep db (.setTaskState allocId taskName state restartCount) db'
  | deleteAlloc {db db' : ClientDb} {allocId : AllocId} {fault fault' : Bool} :
      deleteAlloc db allocId fault fault' = (.ok (), db') → ClientStep db (.deleteAlloc allocId) db'
  | reopen {db db' : ClientDb} :
      (∀ table, (db.tables table).Relayout (db'.tables table)) → ClientStep db .reopen db'

def clientSystem : System ClientDb ClientCall where
  start db := db = .empty
  step := ClientStep

def record (m : AllocId → Option Allocation) : ClientCall → AllocId → Option Allocation
  | .upsertAlloc alloc => Function.update m alloc.id (some alloc)
  | .deleteAlloc allocId => Function.update m allocId none
  | .setTaskState .. | .reopen => m

/-- The allocation that was last written under each id, unless it was deleted since. -/
def recorded (calls : List ClientCall) : AllocId → Option Allocation :=
  calls.foldl record fun _ => none

def mapSystem : System (AllocId → Option Allocation) ClientCall where
  start m := m = fun _ => none
  step m call m' := m' = record m call

/-- The table holds the allocations of the map and no others. -/
structure Stores (db : ClientDb) (m : AllocId → Option Allocation) : Prop where
  rows : ∀ k row, (db.tables .allocations).lookup k = some row →
    ∃ a, m a.id = some a ∧ row.select selected = allocRow a
  found : ∀ id a, m id = some a → a.id = id ∧ a.resources.I32 ∧
    ∃ row, (db.tables .allocations).lookup (idKey id) = some row ∧
      row.select selected = allocRow a

variable {db db' : ClientDb} {m : AllocId → Option Allocation}

theorem row_id {row : Row} {a : Allocation} (h : row.select selected = allocRow a) :
    row "id" = some (.text a.id) := (List.cons.inj h).1

theorem key_eq {k : List (Option Value)} {row : Row} {a : Allocation}
    (hk : (db.tables .allocations).lookup k = some row) (h : row.select selected = allocRow a) :
    k = idKey a.id := by
  rw [← db.keyed .allocations k row hk, idKey, ← row_id h]
  rfl

theorem execute_eq_ok {statement : Statement ClientTable} {fault : Bool}
    (h : execute db statement fault = (.ok (), db')) :
    db'.tables = statement.effect clientSchema db.tables := by
  unfold execute at h
  split at h
  · cases h
  · split at h
    next hexec =>
      cases h
      exact Database.exec_eq_some hexec
    next => cases h

/-! What each statement of `delete_alloc` does to each table. -/

section Deletion
variable {allocId : AllocId} {fault : Bool}

theorem allocations_deleteStates
    (h : execute db (deleteStatesStatement allocId) fault = (.ok (), db')) :
    db'.tables .allocations = db.tables .allocations := by
  rw [execute_eq_ok h]
  exact effect_delete_of_ne (by decide)

theorem taskStates_deleteStates
    (h : execute db (deleteStatesStatement allocId) fault = (.ok (), db')) :
    db'.tables .taskStates = deleteRows "alloc_id" (.text allocId) (db.tables .taskStates) := by
  rw [execute_eq_ok h]
  exact effect_delete_self

theorem allocations_deleteRow
    (h : execute db (deleteRowStatement allocId) fault = (.ok (), db')) :
    db'.tables .allocations = deleteRows "id" (.text allocId) (db.tables .allocations) := by
  rw [execute_eq_ok h]
  exact effect_delete_self

theorem taskStates_deleteRow
    (h : execute db (deleteRowStatement allocId) fault = (.ok (), db')) :
    db'.tables .taskStates = db.tables .taskStates := by
  rw [execute_eq_ok h]
  exact effect_delete_of_ne (by decide)

end Deletion

theorem Stores.congr (h : Stores db m)
    (heq : ∀ k, (db'.tables .allocations).lookup k = (db.tables .allocations).lookup k) :
    Stores db' m where
  rows k row hk := h.rows k row (by rw [← heq, hk])
  found id a ha := by
    rw [heq]
    exact h.found id a ha

theorem Stores.upsertAlloc (h : Stores db m) {a : Allocation} (ha : a.resources.I32) {fault : Bool}
    (hok : upsertAlloc db a fault = (.ok (), db')) :
    Stores db' (Function.update m a.id (some a)) := by
  have htable : db'.tables .allocations =
      upsertRow ["id"] (insertedAlloc a) updated (db.tables .allocations) := by
    rw [execute_eq_ok hok]
    exact effect_upsert_self
  have hrow : ((insertedAlloc a).upserted updated
      ((db.tables .allocations).lookup (idKey a.id))).select selected = allocRow a := by
    cases hold : (db.tables .allocations).lookup (idKey a.id) with
    | none => exact select_insertedAlloc a
    | some old => exact select_update (List.cons.inj (db.keyed .allocations _ old hold)).1
  constructor
  · intro k row hk
    rw [htable] at hk
    rcases HashMap.lookup_insert_eq_some.1 hk with ⟨_, rfl⟩ | ⟨hne, hk⟩
    · exact ⟨a, Function.update_self _ _ _, hrow⟩
    · obtain ⟨b, hb, hselect⟩ := h.rows k row hk
      have hid : b.id ≠ a.id := by
        rintro hid
        exact hne (by rw [key_eq hk hselect, hid]; rfl)
      exact ⟨b, by rwa [Function.update_of_ne hid], hselect⟩
  · intro id b hb
    rw [htable]
    by_cases hid : id = a.id
    · subst hid
      rw [Function.update_self, Option.some_inj] at hb
      subst hb
      exact ⟨rfl, ha, _, AList.lookup_insert _, hrow⟩
    · rw [Function.update_of_ne hid] at hb
      obtain ⟨hb_id, hi32, row, hk, hselect⟩ := h.found id b hb
      refine ⟨hb_id, hi32, row, ?_, hselect⟩
      rw [upsertRow, AList.lookup_insert_ne, hk]
      exact mt idKey_inj.1 hid

theorem Stores.setTaskState (h : Stores db m) {allocId : AllocId} {taskName : String}
    {state : TaskState} {restartCount : ℕ} {fault : Bool}
    (hok : setTaskState db allocId taskName state restartCount fault = (.ok (), db')) :
    Stores db' m := by
  refine h.congr fun k => ?_
  rw [execute_eq_ok hok, setTaskStateStatement, effect_upsert_of_ne (by decide)]

theorem Stores.deleteAlloc (h : Stores db m) {allocId : AllocId} {fault fault' : Bool}
    (hok : deleteAlloc db allocId fault fault' = (.ok (), db')) :
    Stores db' (Function.update m allocId none) := by
  unfold ClientState.deleteAlloc at hok
  split at hok
  · cases hok
  next mid hfirst =>
    have htable : db'.tables .allocations =
        deleteRows "id" (.text allocId) (db.tables .allocations) := by
      rw [allocations_deleteRow hok, allocations_deleteStates hfirst]
    constructor
    · intro k row hk
      rw [htable] at hk
      obtain ⟨hk, hkept⟩ := HashMap.lookup_filter_eq_some.1 hk
      obtain ⟨a, ha, hselect⟩ := h.rows k row hk
      have hid : a.id ≠ allocId := by
        rintro rfl
        simp [row_id hselect] at hkept
      exact ⟨a, by rwa [Function.update_of_ne hid], hselect⟩
    · intro id a ha
      by_cases hid : id = allocId
      · subst hid
        rw [Function.update_self] at ha
        cases ha
      · rw [Function.update_of_ne hid] at ha
        obtain ⟨rfl, hi32, row, hk, hselect⟩ := h.found id a ha
        refine ⟨rfl, hi32, row, ?_, hselect⟩
        rw [htable]
        exact HashMap.lookup_filter_eq_some.2 ⟨hk, by simp [row_id hselect, hid]⟩

/-- A client state does what a map of allocations does. -/
theorem client_simulates_map : System.Simulates clientSystem mapSystem Stores where
  start db hdb := by
    obtain rfl : db = .empty := hdb
    exact ⟨_, rfl, fun k row hk => by simp [Database.empty] at hk, fun id a ha => by cases ha⟩
  step db m call db' h hstep := by
    refine ⟨record m call, rfl, ?_⟩
    cases hstep with
    | upsertAlloc ha hok => exact h.upsertAlloc ha hok
    | setTaskState hok => exact h.setTaskState hok
    | deleteAlloc hok => exact h.deleteAlloc hok
    | reopen hsame => exact h.congr fun k => ((hsame .allocations).lookup_eq k).symm

theorem mapSystem_trace {calls : List ClientCall} (h : mapSystem.Trace calls m) :
    m = recorded calls := by
  induction h with
  | start hm => exact hm
  | step _ hstep ih =>
      rw [recorded, List.foldl_append, ← recorded, ← ih]
      exact hstep

/-! ## Reading the map back -/

theorem mapM_keyed {α β κ : Type} {f : α → Result β} {key : α → κ} {key' : β → κ}
    {P : β → Prop} {xs : List α} (h : ∀ x ∈ xs, ∃ y, f x = .ok y ∧ key' y = key x ∧ P y) :
    ∃ ys, xs.mapM f = .ok ys ∧ ys.map key' = xs.map key ∧ ∀ y ∈ ys, P y := by
  induction xs with
  | nil => exact ⟨[], rfl, rfl, by simp⟩
  | cons x xs ih =>
      obtain ⟨y, hy, hkey, hp⟩ := h x List.mem_cons_self
      obtain ⟨ys, hys, hkeys, hall⟩ := ih fun x hx => h x (List.mem_cons_of_mem _ hx)
      refine ⟨y :: ys, ?_, by rw [List.map_cons, List.map_cons, hkey, hkeys],
        List.forall_mem_cons.2 ⟨hp, hall⟩⟩
      rw [List.mapM_cons, hy, Result.bind_eq_ok]
      exact ⟨y, rfl, Result.bind_eq_ok.2 ⟨ys, hys, rfl⟩⟩

theorem Stores.listAllocs (h : Stores db m) : ∃ allocs, listAllocs db = .ok allocs ∧
    (allocs.map Allocation.id).Nodup ∧ ∀ id a, m id = some a ↔ a ∈ allocs ∧ a.id = id := by
  have hread : ∀ e ∈ (db.tables .allocations).entries, ∃ a,
      readAlloc (e.2.select selected) = .ok a ∧ idKey a.id = e.1 ∧ m a.id = some a := by
    rintro ⟨k, row⟩ he
    have hk : (db.tables .allocations).lookup k = some row := AList.mem_lookup_iff.2 he
    obtain ⟨a, ha, hselect⟩ := h.rows k row hk
    refine ⟨a, ?_, (key_eq hk hselect).symm, ha⟩
    rw [hselect]
    exact readAlloc_allocRow (h.found _ _ ha).2.1
  obtain ⟨allocs, hallocs, hkeys, hmem⟩ := mapM_keyed hread
  refine ⟨allocs, ?_, ?_, fun id a => ⟨fun ha => ?_, ?_⟩⟩
  · rw [ClientState.listAllocs, HashMap.values, List.map_map, List.mapM_map]
    exact hallocs
  · have hnodup := (db.tables .allocations).keys_nodup
    rw [AList.keys, List.keys, ← hkeys] at hnodup
    exact List.Nodup.of_map idKey (by rwa [List.map_map])
  · obtain ⟨rfl, _, row, hk, _⟩ := h.found id a ha
    have hin : idKey a.id ∈ allocs.map fun a => idKey a.id := by
      rw [hkeys]
      exact AList.mem_keys.1 (AList.lookup_isSome.1 (by rw [hk]; rfl))
    obtain ⟨b, hb, hsame⟩ := List.mem_map.1 hin
    have hb' := hmem b hb
    rw [idKey_inj.1 hsame, ha] at hb'
    cases hb'
    exact ⟨hb, rfl⟩
  · rintro ⟨ha, rfl⟩
    exact hmem a ha

/-- Whatever calls have succeeded, `list_allocs` returns one allocation for each id that was
written and not deleted since, as it was last written. -/
theorem client_state_faithful {calls : List ClientCall} {db : ClientDb}
    (h : clientSystem.Trace calls db) : ∃ allocs, listAllocs db = .ok allocs ∧
      (allocs.map Allocation.id).Nodup ∧
      ∀ id a, recorded calls id = some a ↔ a ∈ allocs ∧ a.id = id := by
  obtain ⟨m, hm, hstores⟩ := client_simulates_map.trace h
  rw [← mapSystem_trace hm]
  exact hstores.listAllocs

/-! ## A run -/

theorem step_upsertAlloc {a : Allocation} (ha : a.resources.I32)
    (h : (upsertAlloc db a false).1 = .ok ()) :
    clientSystem.step db (.upsertAlloc a) (upsertAlloc db a false).2 :=
  .upsertAlloc ha (Prod.ext h rfl)

def storedAlloc (status : ClientStatus) : Allocation where
  id := "a1"
  evalId := "e1"
  nodeId := "n1"
  jobId := "redis"
  taskGroup := "cache"
  desiredStatus := .run
  clientStatus := status
  resources := ⟨100, 256, 0⟩

def rewritten : ClientDb :=
  (upsertAlloc (upsertAlloc .empty (storedAlloc .running) false).2 (storedAlloc .complete) false).2

theorem rewritten_trace : clientSystem.Trace
    [.upsertAlloc (storedAlloc .running), .upsertAlloc (storedAlloc .complete)] rewritten := by
  have hfirst := System.Trace.step (.start rfl)
    (@step_upsertAlloc .empty (storedAlloc .running) (by decide) (by decide))
  exact hfirst.step (step_upsertAlloc (by decide) (by decide))

theorem client_state_faithful_rewritten : ∃ allocs, listAllocs rewritten = .ok allocs ∧
    (allocs.map Allocation.id).Nodup ∧ ∀ id a,
      recorded [.upsertAlloc (storedAlloc .running), .upsertAlloc (storedAlloc .complete)] id =
        some a ↔ a ∈ allocs ∧ a.id = id :=
  client_state_faithful rewritten_trace

end ClientState
end NomadRs
