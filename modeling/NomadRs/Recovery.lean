import NomadRs.RaftLogRuns
import NomadRs.StoreLog

/-!
# What is rebuilt after a restart

A state machine appends each command to a log store before it applies it, and compacts the log with
its own state. After a restart it takes the state of the snapshot and applies the log to it. A
compaction that stops between the new snapshot and the emptying of the log leaves commands in the
log that the snapshot has seen. They are applied once more, and as nothing follows that the
snapshot has seen and the log lacks, this makes no difference: a compaction may stop anywhere,
any number of times, without a restart changing the state (`restart_rebuilds`).
-/

open LineFile FileSystem

namespace NomadRs
open RaftLogStore StateStore

/-- A state machine with its log; `acknowledged` is no part of the program: it lists the commands
whose append returned `Ok`. -/
structure Recorder where
  store : RaftLogStore
  state : StateStore := .new
  acknowledged : List Command := []

inductive RecorderEvent
  | append (term : UInt64) (command : Command) (now : DateTime) (steps : ℕ)
  | createSnapshot (lastIncludedTerm : UInt64) (steps : ℕ)
  | restart

def StateStore.replay (self : StateStore) (entries : List RaftLogEntry) : StateStore :=
  keyed.applyAll self (entries.map RaftLogEntry.command)

section Recorder
variable [SerdeJson]

def snapshotState (files : RaftFiles) : Result StateStore :=
  match files .snap with
  | none => .ok .new
  | some data => do
    let snap ← SerdeJson.snapshot.decode data
    return snap.state

def rebuilt (files : RaftFiles) : Result StateStore := do
  let state ← snapshotState files
  let entries ← entriesOf files
  return state.replay entries

namespace Recorder

def next (self : Recorder) : RecorderEvent → Option Recorder
  | .append term command now steps =>
    match self.store.run (append term command now) steps with
    | (.ok _, store) => some {
        store
        state := (self.state.apply command).2
        acknowledged := self.acknowledged ++ [command] }
    | (.error _, store) => some { self with store }
  | .createSnapshot lastIncludedTerm steps =>
    some { self with
      store := (self.store.run (createSnapshot self.state lastIncludedTerm) steps).2 }
  | .restart => do
    let store ← reopened self.store.files
    let state ← (rebuilt self.store.files).toOption
    return { self with store, state }

def recorder : System Recorder RecorderEvent where
  start r := r = { store := ⟨⟨[], 1⟩, fun _ => none⟩ }
  step r event r' := r.next event = some r'

/-- An append writes its line or nothing, and the index of a snapshot does not wrap around. A
compaction may stop anywhere. -/
def Whole (r : Recorder) : RecorderEvent → Prop
  | .append term command now steps =>
    steps ≤ 1 ∨
      (SerdeJson.entry.encodeLine (r.store.inner.newEntry term command now)).length < steps
  | .createSnapshot _ _ =>
    r.store.inner.baseIndex.toNat + r.store.inner.entries.length < 2 ^ 64
  | .restart => True

/-- The files hold a snapshot and whole entries, and these amount to what was acknowledged. -/
structure Kept (files : RaftFiles) (acknowledged : List Command) : Prop where
  opens : ∃ baseIndex, baseIndexOf files = .ok baseIndex
  files : ∃ base entries, snapshotState files = .ok base ∧
    logBytes files = SerdeJson.entry.encodeLines entries ∧
    ∀ k, (base.replay entries).read k = (keyed.applyAll .new acknowledged).read k

structure Sound (r : Recorder) : Prop where
  kept : Kept r.store.files r.acknowledged
  state : ∀ k, r.state.read k = (keyed.applyAll .new r.acknowledged).read k

variable {r r' : Recorder} {files : RaftFiles} {acknowledged : List Command}

theorem Kept.exists_rebuilt (h : Kept files acknowledged) :
    ∃ state inner, rebuilt files = .ok state ∧ openAt files = .ok inner ∧
      ∀ k, state.read k = (keyed.applyAll .new acknowledged).read k := by
  obtain ⟨baseIndex, hindex⟩ := h.opens
  obtain ⟨base, entries, hbase, hlog, hread⟩ := h.files
  have hentries : SerdeJson.entry.decodeLines (logBytes files) = .ok entries := by
    rw [hlog, decodeLines_encodeLines]
  refine ⟨base.replay entries, ⟨entries, baseIndex⟩, ?_, openAt_of_ok hindex hentries, hread⟩
  rw [rebuilt, hbase, entriesOf_eq, hentries]
  rfl

theorem Kept.append (h : Kept files acknowledged) (entry : RaftLogEntry) :
    Kept (setLog files (logBytes files ++ SerdeJson.entry.encodeLine entry))
      (acknowledged ++ [entry.command]) := by
  obtain ⟨base, entries, hbase, hlog, hread⟩ := h.files
  refine ⟨h.opens, base, entries ++ [entry], hbase, ?_, fun k => ?_⟩
  · rw [logBytes_setLog, hlog, encodeLines_concat]
  · rw [StateStore.replay, List.map_append, keyed.applyAll_append, keyed.applyAll_append]
    exact keyed.read_eq_of_writes (hread k) rfl

theorem Kept.congr {files' : RaftFiles} (h : Kept files acknowledged)
    (hsnap : files' .snap = files .snap) (hlog : logBytes files' = logBytes files) :
    Kept files' acknowledged := by
  obtain ⟨base, entries, hbase, hentries, hread⟩ := h.files
  refine ⟨?_, base, entries, ?_, hlog.trans hentries, hread⟩
  · rw [baseIndexOf_congr hsnap]
    exact h.opens
  · rw [snapshotState, hsnap]
    exact hbase

theorem Kept.compact {files' : RaftFiles} (h : Kept files acknowledged) {snapshot : RaftSnapshot}
    (hstate : ∀ k, snapshot.state.read k = (keyed.applyAll .new acknowledged).read k)
    (hsnap : files' .snap = some (SerdeJson.snapshot.encode snapshot))
    (hlog : logBytes files' = logBytes files ∨ logBytes files' = []) :
    Kept files' acknowledged := by
  have hbase : snapshotState files' = .ok snapshot.state := by
    rw [snapshotState, hsnap]
    simp only [Codec.decode_encode]
    rfl
  refine ⟨⟨_, baseIndexOf_of_snap hsnap⟩, ?_⟩
  obtain ⟨base, entries, _, hentries, hread⟩ := h.files
  rcases hlog with hlog | hlog
  · -- the snapshot has seen these entries, and they are all it has seen since the one before
    refine ⟨snapshot.state, entries, hbase, hlog.trans hentries, fun k => ?_⟩
    rw [← hread k]
    exact keyed.read_applyAll_again ((hstate k).trans (hread k).symm)
  · exact ⟨snapshot.state, [], hbase, hlog, hstate⟩

theorem Sound.append (h : r.Sound) {term : UInt64} {command : Command} {now : DateTime}
    {steps : ℕ} (hwhole : r.Whole (.append term command now steps))
    (hstep : r.next (.append term command now steps) = some r') : r'.Sound := by
  rcases r.store.append_cases term command now steps rfl with
    ⟨_, hrun⟩ | ⟨_, hrun⟩ | ⟨n, hn, hlt, hrun⟩ <;> rw [next, hrun] at hstep <;> cases hstep
  · refine ⟨h.kept.append _, fun k => ?_⟩
    rw [keyed.applyAll_append]
    change keyed.read (keyed.applyAll r.state [command]) k = _
    exact keyed.read_eq_of_writes (h.state k) rfl
  · exact h
  · obtain rfl : n = 0 := by
      rcases hwhole with hle | hlt' <;> omega
    refine ⟨h.kept.congr ?_ ?_, h.state⟩
    · simp only [setLog_snap]
    · rw [logBytes_setLog, List.take_zero, List.append_nil]

theorem Sound.createSnapshot (h : r.Sound) {term : UInt64} {steps : ℕ}
    (hwhole : r.Whole (.createSnapshot term steps))
    (hstep : r.next (.createSnapshot term steps) = some r') : r'.Sound := by
  cases hstep
  refine ⟨?_, h.state⟩
  obtain ⟨done, s', hcompact, hcases⟩ := r.store.compact_cases
    { state := r.state, lastIncludedIndex := r.store.inner.lastIndex, lastIncludedTerm := term }
    (r.store.inner.entries.drop (r.store.inner.truncateCount r.store.inner.lastIndex)) steps
  rw [run_createSnapshot, hcompact]
  rcases hcases with ⟨_, _, _, hsnap, hlog⟩ | ⟨_, _, _, hsnap, hlog⟩ | ⟨n, _, _, _, hsnap, hlog⟩
  · exact h.kept.congr hsnap (by rw [logBytes, hlog, logBytes])
  · exact h.kept.compact h.state hsnap (.inl (by rw [logBytes, hlog, logBytes]))
  · refine h.kept.compact h.state hsnap (.inr ?_)
    rw [logBytes, hlog, Inner.drop_truncateCount hwhole, encodeLines_nil, List.take_nil]
    rfl

theorem Sound.restart (h : r.Sound) :
    ∃ r', r.next .restart = some r' ∧ r'.acknowledged = r.acknowledged ∧ r'.Sound := by
  obtain ⟨state, inner, hrebuilt, hopen, hstate⟩ := h.kept.exists_rebuilt
  have hstore : reopened r.store.files = some ⟨inner, r.store.files⟩ :=
    reopened_eq_some.2 ⟨hopen, rfl⟩
  refine ⟨{ r with store := ⟨inner, r.store.files⟩, state }, ?_, rfl, h.kept, hstate⟩
  simp only [next, hstore, hrebuilt, Except.toOption]
  rfl

theorem Sound.of_reachable (h : recorder.ReachableVia Whole r) : r.Sound := by
  refine h.invariant Sound ?_ fun r event r' hr hwhole hstep => ?_
  · rintro _ rfl
    exact ⟨⟨⟨1, rfl⟩, .new, [], rfl, rfl, fun _ => rfl⟩, fun _ => rfl⟩
  · cases event with
    | append term command now steps => exact hr.append hwhole hstep
    | createSnapshot term steps => exact hr.createSnapshot hwhole hstep
    | restart =>
        obtain ⟨r'', hr'', _, hsound⟩ := hr.restart
        cases hr''.symm.trans hstep
        exact hsound

/-- In a run in which no append is torn, compactions may stop anywhere: at every moment the state
is what the acknowledged commands make of an empty store, and a restart is possible and rebuilds
this state. -/
theorem restart_rebuilds (h : recorder.ReachableVia Whole r) :
    r.state.Relayout (Fsm.new.applyAll r.acknowledged).state ∧
    ∃ r', r.next .restart = some r' ∧ r'.acknowledged = r.acknowledged ∧
      r'.state.Relayout r.state := by
  have hr := Sound.of_reachable h
  obtain ⟨r', hr', hack, hsound⟩ := hr.restart
  refine ⟨relayout_of_read fun k => ?_, r', hr', hack, relayout_of_read fun k => ?_⟩
  · rw [Fsm.state_applyAll]
    exact hr.state k
  · rw [hsound.state k, hr.state k, hack]

/-! ## A compaction that stops before the log is emptied -/

theorem exists_next_append (r : Recorder) (term : UInt64) (command : Command) (now : DateTime) :
    ∃ steps r', r.Whole (.append term command now steps) ∧
      r.next (.append term command now steps) = some r' ∧
      r'.acknowledged = r.acknowledged ++ [command] ∧
      r'.store.inner = r.store.inner.push (r.store.inner.newEntry term command now) ∧
      logBytes r'.store.files ≠ [] := by
  obtain ⟨steps, hsteps⟩ := exists_gt
    (SerdeJson.entry.encodeLine (r.store.inner.newEntry term command now)).length
  refine ⟨steps, _, .inr hsteps, by rw [Recorder.next, append_of_lt rfl hsteps], rfl, rfl, ?_⟩
  simp [LineCodec.encodeLine]

theorem exists_next_createSnapshot (r : Recorder) (term : UInt64) : ∃ steps r',
    r.next (.createSnapshot term steps) = some r' ∧ r'.acknowledged = r.acknowledged ∧
      r'.store.files .snap ≠ none ∧ logBytes r'.store.files = logBytes r.store.files := by
  obtain ⟨steps, hsteps⟩ : ∃ steps, steps = (SerdeJson.snapshot.encode
    { state := r.state, lastIncludedIndex := r.store.inner.lastIndex,
      lastIncludedTerm := term }).length + 2 := ⟨_, rfl⟩
  obtain ⟨done, s', hcompact, hcases⟩ := r.store.compact_cases
    { state := r.state, lastIncludedIndex := r.store.inner.lastIndex, lastIncludedTerm := term }
    (r.store.inner.entries.drop (r.store.inner.truncateCount r.store.inner.lastIndex)) steps
  refine ⟨steps, _, rfl, rfl, ?_⟩
  rw [run_createSnapshot, hcompact]
  rcases hcases with ⟨hlt, _⟩ | ⟨_, _, _, hsnap, hlog⟩ | ⟨n, hn, _⟩
  · omega
  · exact ⟨by simp [hsnap], by rw [logBytes, hlog, logBytes]⟩
  · omega

end Recorder
end Recorder

section Sample
attribute [local instance] SerdeJson.sample
open Recorder

/-- A snapshot is written and the log is not emptied: the job it holds is applied once more. -/
theorem restart_rebuilds_halfCompacted : ∃ r : Recorder, r.store.files .snap ≠ none ∧
    logBytes r.store.files ≠ [] ∧ ∃ r', r.next .restart = some r' ∧
      r'.acknowledged = [.upsertJob (webJob 1)] ∧
      r'.state.read (.job "web") = some (.job (webJob 1)) := by
  have hstart : recorder.ReachableVia Whole { store := ⟨⟨[], 1⟩, fun _ => none⟩ } := .start rfl
  obtain ⟨steps, r, hwhole, hnext, hack, hinner, hlog⟩ :=
    exists_next_append { store := ⟨⟨[], 1⟩, fun _ => none⟩ } 1 (.upsertJob (webJob 1)) 0
  obtain ⟨stop, r', hnext', hack', hsnap, hlog'⟩ := r.exists_next_createSnapshot 1
  have hroom : r.Whole (.createSnapshot 1 stop) := by
    rw [Whole, hinner]
    decide
  have hr' : recorder.ReachableVia Whole r' := (hstart.next hnext hwhole).next hnext' hroom
  obtain ⟨hstate, r'', hr'', hack'', hstate'⟩ := restart_rebuilds hr'
  refine ⟨r', hsnap, hlog'.symm ▸ hlog, r'', hr'', hack''.trans (hack'.trans hack), ?_⟩
  rw [hstate'.read_eq, hstate.read_eq, hack', hack]
  rfl

end Sample
end NomadRs
