import NomadRs.RaftLogRuns

/-!
# Snapshots beside appends

One thread appends entries, another reads a state and later creates a snapshot with it. The index
a snapshot covers is that of the last entry when it is created, not when the state was read. So
entries appended in between are taken off the log without being in the state, and nothing is
lost exactly if there are none.
-/

open LineFile FileSystem

namespace NomadRs
open RaftLogStore

def StateStore.replayed (entries : List RaftLogEntry) : StateStore :=
  entries.foldl (fun state entry => (state.apply entry.command).2) .new

/-- The store, the entries whose append returned `Ok`, the state the second thread holds with the
number of entries it has applied, and this number and the result for its last snapshot. -/
structure SnapshotRace where
  store : RaftLogStore
  appended : List RaftLogEntry := []
  captured : Option (ℕ × StateStore) := none
  created : Option (ℕ × Result RaftSnapshot) := none

inductive RaceEvent
  | append (term : UInt64) (command : Command) (now : DateTime) (steps : ℕ)
  | read (applied : ℕ)
  | createSnapshot (lastIncludedTerm : UInt64) (steps : ℕ)

namespace SnapshotRace
variable [SerdeJson]

def next (self : SnapshotRace) : RaceEvent → Option SnapshotRace
  | .append term command now steps =>
    match self.store.run (append term command now) steps with
    | (.ok entry, store) => some { self with store, appended := self.appended ++ [entry] }
    | (.error _, store) => some { self with store }
  | .read applied =>
    if applied ≤ self.appended.length then
      some { self with captured := some (applied, .replayed (self.appended.take applied)) }
    else none
  | .createSnapshot lastIncludedTerm steps =>
    self.captured.map fun (applied, state) =>
      let (result, store) := self.store.run (createSnapshot state lastIncludedTerm) steps
      { self with store, captured := none, created := some (applied, result) }

def raceSystem : System SnapshotRace RaceEvent where
  start s := s = { store := ⟨⟨[], 1⟩, fun _ => none⟩ }
  step s event s' := s.next event = some s'

omit [SerdeJson] in
/-- No entry beyond those in the state is missing from the log, and none is covered. -/
def KeepsLater (s : SnapshotRace) (applied : ℕ) (result : Result RaftSnapshot) : Prop :=
  (∀ entry ∈ s.appended, applied < entry.index.toNat →
    s.store.inner.get entry.index = some entry) ∧
  ∀ snapshot, result = .ok snapshot → snapshot.lastIncludedIndex.toNat ≤ applied

omit [SerdeJson] in
/-- Indices stay below the largest one, and a snapshot is only created when the state has applied
every entry of the log. -/
def UpToDate (s : SnapshotRace) : RaceEvent → Prop
  | .append _ _ _ _ => BelowMax s.store.inner.nextIndex
  | .read _ => True
  | .createSnapshot _ _ =>
    ∀ applied state, s.captured = some (applied, state) → s.store.inner.lastIndex.toNat ≤ applied

/-! ## The invariant -/

omit [SerdeJson] in
/-- Appended entries are in the log or below its base index, and the base index is not beyond what
the state of the last snapshot has applied. -/
structure Accounted (s : SnapshotRace) : Prop where
  indexed : s.store.inner.Indexed
  held : ∀ entry ∈ s.appended, entry ∈ s.store.inner.entries ∨
    entry.index.toNat < s.store.inner.baseIndex.toNat
  covered : ∀ applied result, s.created = some (applied, result) →
    s.store.inner.baseIndex.toNat ≤ applied + 1 ∧
      ∀ snapshot, result = .ok snapshot → snapshot.lastIncludedIndex.toNat ≤ applied

variable {s s' : SnapshotRace}

omit [SerdeJson] in
theorem Accounted.keepsLater (h : s.Accounted) {applied : ℕ} {result : Result RaftSnapshot}
    (hcreated : s.created = some (applied, result)) : s.KeepsLater applied result := by
  obtain ⟨hbase, hindex⟩ := h.covered applied result hcreated
  refine ⟨fun entry he hlater => ?_, hindex⟩
  rcases h.held entry he with hmem | hlt
  · exact h.indexed.get_of_mem hmem
  · omega

theorem Accounted.append (h : s.Accounted) {term : UInt64} {command : Command} {now : DateTime}
    {steps : ℕ} (hmax : BelowMax s.store.inner.nextIndex)
    (hstep : s.next (.append term command now steps) = some s') : s'.Accounted := by
  rcases s.store.append_cases term command now steps rfl with
    ⟨_, hrun⟩ | ⟨_, hrun⟩ | ⟨_, _, _, hrun⟩ <;> rw [next, hrun] at hstep <;> cases hstep
  · refine ⟨h.indexed.push hmax term command now, fun entry he => ?_, h.covered⟩
    simp only [Inner.push, List.mem_append, List.mem_singleton] at he ⊢
    rcases he with he | rfl
    · exact (h.held entry he).imp_left .inl
    · exact .inl (.inr rfl)
  · exact ⟨h.indexed, h.held, h.covered⟩
  · exact ⟨h.indexed, h.held, h.covered⟩

theorem next_createSnapshot {term : UInt64} {steps : ℕ}
    (hstep : s.next (.createSnapshot term steps) = some s') : ∃ applied state result store,
      s.captured = some (applied, state) ∧
      s.store.run (createSnapshot state term) steps = (result, store) ∧
      s' = { s with store, captured := none, created := some (applied, result) } := by
  obtain ⟨⟨applied, state⟩, hcaptured, rfl⟩ := Option.map_eq_some_iff.1 hstep
  exact ⟨applied, state, _, _, hcaptured, rfl, rfl⟩

theorem Accounted.createSnapshot (h : s.Accounted) {term : UInt64} {steps : ℕ}
    (hdate : s.UpToDate (.createSnapshot term steps))
    (hstep : s.next (.createSnapshot term steps) = some s') : s'.Accounted := by
  obtain ⟨applied, state, result, store, hcaptured, hrun, rfl⟩ := next_createSnapshot hstep
  have hle := hdate applied state hcaptured
  have hlast := Inner.toNat_lastIndex h.indexed.base_pos h.indexed.bound
  obtain ⟨hok, hinner⟩ := createSnapshot_cases hrun
  have hcovered : ∀ snapshot, result = .ok snapshot →
      snapshot.lastIncludedIndex.toNat ≤ applied := by
    intro snapshot hsnapshot
    rw [hok snapshot hsnapshot]
    exact hle
  rcases hinner with hinner | hinner
  · refine ⟨?_, ?_, ?_⟩ <;> dsimp only <;> rw [hinner]
    · exact h.indexed
    · exact h.held
    · rintro _ _ heq
      cases heq
      exact ⟨by omega, hcovered⟩
  · -- the whole log is covered now
    have hmax := h.indexed.lastIndex_belowMax
    rw [keptBy, Inner.drop_truncateCount h.indexed.bound] at hinner
    refine ⟨?_, ?_, ?_⟩ <;> dsimp only <;> rw [hinner]
    · exact .reset hmax
    · intro entry he
      rw [toNat_succ hmax, hlast]
      rcases h.held entry he with hmem | hlt
      · exact .inr (h.indexed.index_lt_of_mem hmem)
      · exact .inr (by omega)
    · rintro _ _ heq
      cases heq
      rw [toNat_succ hmax]
      exact ⟨by omega, hcovered⟩

theorem accounted_of_reachable (h : raceSystem.ReachableVia UpToDate s) : s.Accounted := by
  refine h.invariant Accounted ?_ fun s event s' hs hguard hstep => ?_
  · rintro _ rfl
    exact ⟨.new, by simp, by simp⟩
  · cases event with
    | append term command now steps => exact hs.append hguard hstep
    | createSnapshot term steps => exact hs.createSnapshot hguard hstep
    | read applied =>
        obtain ⟨_, heq⟩ := Option.ite_none_right_eq_some.1 hstep
        cases heq
        exact ⟨hs.indexed, hs.held, hs.covered⟩

/-- In a run in which every snapshot is created with a state that has applied the whole log, no
entry that a snapshot's state lacks is ever missing or covered. And a snapshot created in the end
keeps this up exactly if no entry was appended after its state was read. -/
theorem snapshot_keeps_later_iff (h : raceSystem.ReachableVia UpToDate s) :
    (∀ applied result, s.created = some (applied, result) → s.KeepsLater applied result) ∧
    ∀ applied state term steps snapshot s', s.captured = some (applied, state) →
      s.next (.createSnapshot term steps) = some s' →
      s'.created = some (applied, .ok snapshot) →
        (s'.KeepsLater applied (.ok snapshot) ↔ s.store.inner.lastIndex.toNat ≤ applied) := by
  have hs := accounted_of_reachable h
  refine ⟨fun _ _ => hs.keepsLater, ?_⟩
  intro applied state term steps snapshot s' hcaptured hstep hcreated
  constructor
  · rintro ⟨-, hindex⟩
    obtain ⟨_, state', result, store, _, hrun, rfl⟩ := next_createSnapshot hstep
    obtain ⟨rfl, rfl⟩ := Prod.mk.inj (Option.some.inj hcreated)
    rw [← (createSnapshot_cases hrun).1 snapshot rfl]
    exact hindex snapshot rfl
  · intro hle
    refine (hs.createSnapshot ?_ hstep).keepsLater hcreated
    rintro applied' state' hcaptured'
    rw [hcaptured, Option.some.injEq, Prod.mk.injEq] at hcaptured'
    rw [← hcaptured'.1]
    exact hle

/-! ## An entry appended between reading and creating -/

theorem exists_next_append (h : raceSystem.ReachableVia UpToDate s)
    (hmax : BelowMax s.store.inner.nextIndex) (term : UInt64) (command : Command)
    (now : DateTime) : ∃ s', raceSystem.ReachableVia UpToDate s' ∧
      s'.store.inner = s.store.inner.push (s.store.inner.newEntry term command now) ∧
      s'.appended = s.appended ++ [s.store.inner.newEntry term command now] := by
  obtain ⟨steps, hsteps⟩ := exists_gt
    (SerdeJson.entry.encodeLine (s.store.inner.newEntry term command now)).length
  have hrun := append_of_lt (s := s.store) rfl hsteps
  have hnext : s.next (.append term command now steps) = some { s with
      store := (s.store.run (append term command now) steps).2
      appended := s.appended ++ [s.store.inner.newEntry term command now] } := by
    rw [next, hrun]
  exact ⟨_, h.next hnext hmax, by rw [hrun], rfl⟩

theorem exists_captured {applied : ℕ} (hle : applied ≤ 2) : ∃ s,
    raceSystem.ReachableVia UpToDate s ∧ s.store.inner = ⟨[webEntry 1, webEntry 2], 1⟩ ∧
      s.appended = [webEntry 1, webEntry 2] ∧
      s.captured = some (applied, .replayed ([webEntry 1, webEntry 2].take applied)) := by
  have hstart : raceSystem.ReachableVia UpToDate { store := ⟨⟨[], 1⟩, fun _ => none⟩ } :=
    .start rfl
  obtain ⟨s, hs, hinner, happended⟩ := exists_next_append hstart (by unfold BelowMax; decide) 1
    (.deregisterJob "web") 0
  obtain ⟨s', hs', hinner', happended'⟩ := exists_next_append hs
    (by rw [hinner]; unfold BelowMax; decide) 1 (.deregisterJob "web") 0
  rw [hinner] at hinner' happended'
  rw [happended] at happended'
  have hstep : raceSystem.step s' (.read applied)
      { s' with captured := some (applied, .replayed (s'.appended.take applied)) } :=
    if_pos (by rw [happended']; exact hle)
  refine ⟨_, hs'.next hstep trivial, hinner', happended', ?_⟩
  rw [happended']
  rfl

theorem exists_created {applied : ℕ} {state : StateStore}
    (hcaptured : s.captured = some (applied, state)) :
    ∃ s' steps snapshot, s.next (.createSnapshot 1 steps) = some s' ∧ s'.appended = s.appended ∧
      s'.created = some (applied, .ok snapshot) ∧
      snapshot.lastIncludedIndex = s.store.inner.lastIndex := by
  obtain ⟨steps, store, hrun⟩ := s.store.exists_createSnapshot state 1
  have hnext : s.next (.createSnapshot 1 steps) = some { s with
      store, captured := none
      created := some (applied, .ok ⟨state, s.store.inner.lastIndex, 1⟩) } := by
    simp only [next, hcaptured, Option.map_some, hrun]
  exact ⟨_, steps, _, hnext, rfl, rfl, rfl⟩

end SnapshotRace

section Sample
attribute [local instance] SerdeJson.sample
open SnapshotRace

/-- The state has applied both entries when the snapshot is created. -/
theorem snapshot_keeps_later_iff_web : ∃ s s' : SnapshotRace, ∃ snapshot,
    s.store.inner = ⟨[webEntry 1, webEntry 2], 1⟩ ∧ s'.created = some (2, .ok snapshot) ∧
      s'.KeepsLater 2 (.ok snapshot) := by
  obtain ⟨s, hs, hinner, _, hcaptured⟩ := exists_captured le_rfl
  obtain ⟨s', steps, snapshot, hstep, _, hcreated, _⟩ := exists_created hcaptured
  refine ⟨s, s', snapshot, hinner, hcreated,
    ((snapshot_keeps_later_iff hs).2 _ _ _ _ _ _ hcaptured hstep hcreated).2 ?_⟩
  rw [hinner]
  decide

/-- The second entry is appended after the state was read, and covered by the snapshot. -/
theorem snapshot_swallows_entry : ¬ ∀ s : SnapshotRace, raceSystem.Reachable s →
    s.appended = [webEntry 1, webEntry 2] → ∀ applied result,
      s.created = some (applied, result) → s.KeepsLater applied result := by
  intro h
  obtain ⟨s, hs, hinner, happended, hcaptured⟩ := exists_captured one_le_two
  obtain ⟨s', steps, snapshot, hstep, happended', hcreated, hindex⟩ := exists_created hcaptured
  have hs' : raceSystem.Reachable s' := (hs.mono fun _ _ _ => trivial).next hstep trivial
  have hle := (h s' hs' (happended'.trans happended) 1 _ hcreated).2 snapshot rfl
  rw [hindex, hinner] at hle
  exact absurd hle (by decide)

end Sample
end NomadRs
