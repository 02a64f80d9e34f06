import NomadRs.RaftLogIndex
import NomadRs.RaftLogText
import NomadRs.Transition

/-!
# Runs of the log store

The store as a transition system: calls that may stop after any number of steps, crashes within
a call, and reopening. `Synced` says that the files hold exactly what memory holds. It survives
every successful call, so after a run of successes reopening is the identity, and together with
`Inner.Indexed` every read of the log is coherent.
-/

open LineFile FileSystem Function

namespace NomadRs

inductive RaftLogOp
  | append (term : UInt64) (command : Command) (now : DateTime)
  | createSnapshot (state : StateStore) (lastIncludedTerm : UInt64)
  | installSnapshot (snapshot : RaftSnapshot)
  | truncate (fromIndex : UInt64)

/-- A call with so many steps to go, the same with a crash after it and a reopening, and a
reopening alone. -/
inductive RaftLogEvent
  | call (op : RaftLogOp) (steps : ℕ)
  | crash (op : RaftLogOp) (steps : ℕ)
  | reopen

namespace RaftLogStore
variable [SerdeJson]

def call (self : RaftLogStore) (op : RaftLogOp) (steps : ℕ) : Result Unit × RaftLogStore :=
  match op with
  | .append term command now =>
    (self.run (append term command now) steps).map (Except.map fun _ => ()) id
  | .createSnapshot state lastIncludedTerm =>
    (self.run (createSnapshot state lastIncludedTerm) steps).map (Except.map fun _ => ()) id
  | .installSnapshot snapshot => self.run (installSnapshot snapshot) steps
  | .truncate fromIndex => self.run (truncate fromIndex) steps

def reopened (files : RaftFiles) : Option RaftLogStore :=
  (openAt files).toOption.map fun inner => { inner, files }

def next (self : RaftLogStore) : RaftLogEvent → Option RaftLogStore
  | .call op steps => some (self.call op steps).2
  | .crash op steps => reopened (self.call op steps).2.files
  | .reopen => reopened self.files

def raftLogSystem : System RaftLogStore RaftLogEvent where
  start s := reopened (fun _ => none) = some s
  step s event s' := s.next event = some s'

def Succeeds (s : RaftLogStore) : RaftLogEvent → Prop
  | .call op steps => (s.call op steps).1 = .ok ()
  | .crash _ _ => False
  | .reopen => True

/-- The indices an operation puts into the log are below the largest one. -/
def IndexBelowMax (s : RaftLogStore) : RaftLogOp → Prop
  | .append _ _ _ => BelowMax s.inner.nextIndex
  | .installSnapshot snapshot => BelowMax snapshot.lastIncludedIndex
  | _ => True

def SucceedsBelowMax (s : RaftLogStore) (event : RaftLogEvent) : Prop :=
  s.Succeeds event ∧ ∀ op steps, event = .call op steps → s.IndexBelowMax op

variable {s s' : RaftLogStore} {files files' : RaftFiles} {inner : Inner}

/-! ## What the files hold -/

theorem entriesOf_eq (files : RaftFiles) :
    entriesOf files = SerdeJson.entry.decodeLines (logBytes files) := by
  unfold entriesOf logBytes
  cases files .log <;> rfl

theorem baseIndexOf_congr (h : files' .snap = files .snap) :
    baseIndexOf files' = baseIndexOf files := by rw [baseIndexOf, baseIndexOf, h]

theorem baseIndexOf_of_snap {snapshot : RaftSnapshot}
    (h : files .snap = some (SerdeJson.snapshot.encode snapshot)) :
    baseIndexOf files = .ok (snapshot.lastIncludedIndex + 1) := by
  rw [baseIndexOf, h]
  simp only [Codec.decode_encode]
  rfl

/-- With the snapshot readable, opening is a matter of the log. -/
theorem openAt_eq_ok {baseIndex : UInt64} (hbase : baseIndexOf files = .ok baseIndex) :
    openAt files = .ok inner ↔
      SerdeJson.entry.decodeLines (logBytes files) = .ok inner.entries ∧
        baseIndex = inner.baseIndex := by
  rw [openAt, hbase, entriesOf_eq]
  obtain ⟨entries, base⟩ := inner
  cases SerdeJson.entry.decodeLines (logBytes files) with
  | error e => simp [bind, Except.bind]
  | ok decoded => simp [bind, Except.bind, pure, Except.pure]

theorem openAt_of_ok {baseIndex : UInt64} {entries : List RaftLogEntry}
    (hbase : baseIndexOf files = .ok baseIndex)
    (hentries : SerdeJson.entry.decodeLines (logBytes files) = .ok entries) :
    openAt files = .ok ⟨entries, baseIndex⟩ := (openAt_eq_ok hbase).2 ⟨hentries, rfl⟩

theorem reopened_eq_some : reopened files = some s ↔
    openAt files = .ok s.inner ∧ s.files = files := by
  unfold reopened
  cases openAt files with
  | error e => simp [Except.toOption]
  | ok inner =>
      obtain ⟨inner', files'⟩ := s
      simp only [Except.toOption, Option.map_some, Option.some.injEq, mk.injEq, Except.ok.injEq]
      exact and_congr_right fun _ => eq_comm

/-- The files hold what memory holds. -/
structure Synced (s : RaftLogStore) : Prop where
  base : baseIndexOf s.files = .ok s.inner.baseIndex
  log : logBytes s.files = SerdeJson.entry.encodeLines s.inner.entries

theorem Synced.openAt (h : s.Synced) : openAt s.files = .ok s.inner :=
  openAt_of_ok h.base (by rw [h.log, decodeLines_encodeLines])

theorem start_eq (h : raftLogSystem.start s) : s = ⟨⟨[], 1⟩, fun _ => none⟩ :=
  (Option.some.inj h).symm

theorem Synced.start (h : raftLogSystem.start s) : s.Synced := by
  rw [start_eq h]
  exact ⟨rfl, rfl⟩

/-! ## Successful calls -/

def snapshotOf (s : RaftLogStore) : RaftLogOp → Option RaftSnapshot
  | .createSnapshot state lastIncludedTerm =>
    some { state, lastIncludedIndex := s.inner.lastIndex, lastIncludedTerm }
  | .installSnapshot snapshot => some snapshot
  | _ => none

def keptBy (s : RaftLogStore) : RaftLogOp → List RaftLogEntry
  | .createSnapshot _ _ => s.inner.entries.drop (s.inner.truncateCount s.inner.lastIndex)
  | _ => []

theorem call_compact {op : RaftLogOp} {snapshot : RaftSnapshot}
    (hop : s.snapshotOf op = some snapshot) (steps : ℕ) :
    s.call op steps = s.run (compact snapshot (s.keptBy op)) steps := by
  cases op with
  | append term command now => cases hop
  | truncate fromIndex => cases hop
  | installSnapshot installed =>
      cases hop
      rfl
  | createSnapshot state lastIncludedTerm =>
      cases hop
      rw [call, run_createSnapshot, keptBy]
      rcases s.run (compact _ _) steps with ⟨_ | _, _⟩ <;> rfl

omit [SerdeJson] in
theorem outcome_eq_ok {data : Bytes} {n : ℕ} :
    (outcome data n : Result Unit) = .ok () ↔ data.length ≤ n := by
  unfold outcome
  split <;> simp_all

theorem createSnapshot_cases {state : StateStore} {term : UInt64} {steps : ℕ}
    {result : Result RaftSnapshot}
    (hrun : s.run (createSnapshot state term) steps = (result, s')) :
    (∀ snapshot, result = .ok snapshot → snapshot.lastIncludedIndex = s.inner.lastIndex) ∧
      (s'.inner = s.inner ∨ s'.inner =
        ⟨s.keptBy (.createSnapshot state term), s.inner.lastIndex + 1⟩) := by
  obtain ⟨done, t, hcompact, hcases⟩ := s.compact_cases
    { state, lastIncludedIndex := s.inner.lastIndex, lastIncludedTerm := term }
    (s.keptBy (.createSnapshot state term)) steps
  rw [keptBy] at hcompact
  rw [run_createSnapshot, hcompact] at hrun
  obtain ⟨rfl, rfl⟩ := Prod.mk.inj hrun
  constructor
  · intro snapshot hok
    cases done <;> cases hok
    rfl
  · rcases hcases with ⟨_, _, hinner, _⟩ | ⟨_, _, hinner, _⟩ | ⟨n, _, _, hinner, _⟩
    · exact .inl hinner
    · exact .inr hinner
    · exact .inr hinner

theorem exists_compact (s : RaftLogStore) (snapshot : RaftSnapshot) (entries : List RaftLogEntry) :
    ∃ steps s', s.run (compact snapshot entries) steps = (.ok (), s') := by
  obtain ⟨steps, hsteps⟩ := exists_gt
    ((SerdeJson.snapshot.encode snapshot).length + 3 + (SerdeJson.entry.encodeLines entries).length)
  obtain ⟨result, s', hrun, hcases⟩ := s.compact_cases snapshot entries steps
  refine ⟨steps, s', ?_⟩
  rcases hcases with ⟨hlt, _⟩ | ⟨heq, _⟩ | ⟨n, hn, rfl, _⟩
  · omega
  · omega
  · rw [hrun, outcome_eq_ok.2 (by omega)]

theorem exists_createSnapshot (s : RaftLogStore) (state : StateStore)
    (lastIncludedTerm : UInt64) : ∃ steps s', s.run (createSnapshot state lastIncludedTerm) steps =
      (.ok { state, lastIncludedIndex := s.inner.lastIndex, lastIncludedTerm }, s') := by
  obtain ⟨steps, s', hrun⟩ := s.exists_compact
    { state, lastIncludedIndex := s.inner.lastIndex, lastIncludedTerm }
    (s.keptBy (.createSnapshot state lastIncludedTerm))
  refine ⟨steps, s', ?_⟩
  rw [keptBy] at hrun
  rw [run_createSnapshot, hrun]
  rfl

theorem Synced.append {term : UInt64} {command : Command} {now : DateTime} {steps : ℕ}
    (h : s.Synced) (hok : (s.call (.append term command now) steps).1 = .ok ()) :
    (s.call (.append term command now) steps).2.Synced := by
  rcases s.append_cases term command now steps rfl with ⟨_, hrun⟩ | ⟨_, hrun⟩ | ⟨_, _, _, hrun⟩ <;>
    simp only [call, hrun] at hok ⊢
  · refine ⟨?_, ?_⟩
    · exact (baseIndexOf_congr (setLog_snap _ _)).trans h.base
    · simp only [Prod.map_snd, id_eq, logBytes_setLog, h.log, Inner.push, encodeLines_concat]
  · cases hok
  · cases hok

theorem Synced.compact (op : RaftLogOp) {snapshot : RaftSnapshot} {steps : ℕ}
    (hop : s.snapshotOf op = some snapshot) (hok : (s.call op steps).1 = .ok ()) :
    (s.call op steps).2.Synced ∧
      (s.call op steps).2.inner = ⟨s.keptBy op, snapshot.lastIncludedIndex + 1⟩ := by
  rw [call_compact hop] at hok ⊢
  obtain ⟨result, t, hrun, hcases⟩ := s.compact_cases snapshot (s.keptBy op) steps
  rw [hrun] at hok ⊢
  rcases hcases with ⟨_, rfl, _⟩ | ⟨_, rfl, _⟩ | ⟨n, _, rfl, hinner, hsnap, hlog⟩
  · cases hok
  · cases hok
  · refine ⟨⟨?_, ?_⟩, hinner⟩
    · rw [hinner]
      exact baseIndexOf_of_snap hsnap
    · rw [logBytes, hlog, hinner, List.take_of_length_le (outcome_eq_ok.1 hok)]
      rfl

theorem Synced.createSnapshot {state : StateStore} {term : UInt64} {steps : ℕ}
    {snapshot : RaftSnapshot} {t : RaftLogStore}
    (hrun : s.run (createSnapshot state term) steps = (.ok snapshot, t)) :
    t.Synced ∧ t.inner = ⟨s.keptBy (.createSnapshot state term), s.inner.lastIndex + 1⟩ := by
  have hcall : s.call (.createSnapshot state term) steps = (.ok (), t) := by
    rw [RaftLogStore.call, hrun]
    rfl
  have hcompact := Synced.compact (.createSnapshot state term) rfl (congrArg Prod.fst hcall)
  rwa [hcall] at hcompact

theorem Synced.truncate {fromIndex : UInt64} {steps : ℕ} (h : s.Synced)
    (hok : (s.call (.truncate fromIndex) steps).1 = .ok ()) :
    (s.call (.truncate fromIndex) steps).2.Synced := by
  rcases s.truncate_cases fromIndex steps with
    ⟨_, hrun⟩ | ⟨_, ⟨_, hrun⟩ | ⟨n, _, hrun⟩⟩ <;> simp only [call, hrun] at hok ⊢
  · exact h
  · cases hok
  · refine ⟨(baseIndexOf_congr (setLog_snap _ _)).trans h.base, ?_⟩
    rw [logBytes_setLog, List.take_of_length_le (outcome_eq_ok.1 hok)]

theorem Synced.call {op : RaftLogOp} {steps : ℕ} (h : s.Synced)
    (hok : (s.call op steps).1 = .ok ()) : (s.call op steps).2.Synced := by
  cases op with
  | append term command now => exact h.append hok
  | createSnapshot state term => exact (Synced.compact _ rfl hok).1
  | installSnapshot snapshot => exact (Synced.compact _ rfl hok).1
  | truncate fromIndex => exact h.truncate hok

theorem Synced.reopened (h : s.Synced) (hs : reopened s.files = some s') : s' = s := by
  obtain ⟨hinner, hfiles⟩ := reopened_eq_some.1 hs
  rw [h.openAt, Except.ok.injEq] at hinner
  obtain ⟨inner, files⟩ := s
  obtain ⟨inner', files'⟩ := s'
  simp only at hinner hfiles
  rw [hinner, hfiles]

/-- Reopening is the identity, after any run of successful steps. -/
theorem openAt_eq_inner (h : raftLogSystem.ReachableVia Succeeds s) :
    openAt s.files = .ok s.inner := by
  refine (h.invariant Synced (fun _ => .start) fun s event s' hs hguard hstep => ?_).openAt
  cases event with
  | call op steps =>
      cases hstep
      exact hs.call hguard
  | crash op steps => exact hguard.elim
  | reopen =>
      rw [hs.reopened hstep]
      exact hs

/-! ## Coherent indices -/

theorem indexed_call {op : RaftLogOp} (h : s.inner.Indexed) (hop : s.IndexBelowMax op)
    (steps : ℕ) : (s.call op steps).2.inner.Indexed := by
  have hcompact : ∀ snapshot, s.snapshotOf op = some snapshot →
      BelowMax snapshot.lastIncludedIndex → s.keptBy op = [] →
        (s.call op steps).2.inner.Indexed := by
    intro snapshot hsnap hmax hkept
    rw [call_compact hsnap]
    obtain ⟨result, t, hrun, hcases⟩ := s.compact_cases snapshot (s.keptBy op) steps
    rw [hrun]
    rcases hcases with ⟨_, _, hinner, _⟩ | ⟨_, _, hinner, _⟩ | ⟨n, _, _, hinner, _⟩
    · exact hinner ▸ h
    · rw [hinner, hkept]
      exact .reset hmax
    · rw [hinner, hkept]
      exact .reset hmax
  cases op with
  | append term command now =>
      rcases s.append_cases term command now steps rfl with
        ⟨_, hrun⟩ | ⟨_, hrun⟩ | ⟨_, _, _, hrun⟩ <;> simp only [call, hrun, Prod.map_snd, id_eq]
      · exact h.push hop term command now
      · exact h
      · exact h
  | createSnapshot state term =>
      exact hcompact _ rfl h.lastIndex_belowMax (Inner.drop_truncateCount h.bound)
  | installSnapshot snapshot => exact hcompact _ rfl hop rfl
  | truncate fromIndex =>
      rcases s.truncate_cases fromIndex steps with
        ⟨_, hrun⟩ | ⟨_, ⟨_, hrun⟩ | ⟨n, _, hrun⟩⟩ <;> simp only [call, hrun]
      · exact h
      · exact h.take _
      · exact h.take _

/-- What the accessors and the next append promise about indices. -/
structure Coherent (s : RaftLogStore) : Prop where
  index_of_get : ∀ index entry, s.inner.get index = some entry → entry.index = index
  get_isSome : ∀ index, (s.inner.get index).isSome ↔
    s.inner.baseIndex ≤ index ∧ index ≤ s.inner.lastIndex
  entriesFrom : ∀ index, s.inner.entriesFrom index =
    s.inner.entries.filter fun entry => index ≤ entry.index
  consecutive : ∀ index, ∃ n, (s.inner.entriesFrom index).map (fun entry => entry.index.toNat) =
    List.range' (max s.inner.baseIndex.toNat index.toNat) n
  lastIndex : s.inner.lastIndex.toNat + 1 = s.inner.baseIndex.toNat + s.inner.len
  append : ∀ term command now steps entry,
    (s.run (append term command now) steps).1 = .ok entry →
      entry.index.toNat = s.inner.lastIndex.toNat + 1

theorem Coherent.of_indexed (h : s.inner.Indexed) : s.Coherent where
  index_of_get _ _ he := h.index_of_get he
  get_isSome _ := h.get_isSome_iff
  entriesFrom := h.entriesFrom_eq_filter
  consecutive index := ⟨_, h.entriesFrom_indices index⟩
  lastIndex := Inner.toNat_lastIndex h.base_pos h.bound
  append term command now steps entry hok := by
    rw [Inner.toNat_lastIndex h.base_pos h.bound, ← Inner.toNat_nextIndex h.bound]
    rcases s.append_cases term command now steps rfl with
      ⟨_, hrun⟩ | ⟨_, hrun⟩ | ⟨_, _, _, hrun⟩ <;> rw [hrun] at hok <;> cases hok
    rfl

theorem synced_indexed_of_reachable (h : raftLogSystem.ReachableVia SucceedsBelowMax s) :
    s.Synced ∧ s.inner.Indexed := by
  refine h.invariant (fun s => s.Synced ∧ s.inner.Indexed) (fun s hs => ⟨.start hs, ?_⟩)
    fun s event s' hs hguard hstep => ?_
  · rw [start_eq hs]
    exact .new
  · cases event with
    | call op steps =>
        cases hstep
        exact ⟨hs.1.call hguard.1, indexed_call hs.2 (hguard.2 op steps rfl) steps⟩
    | crash op steps => exact hguard.1.elim
    | reopen =>
        rw [hs.1.reopened hstep]
        exact hs

/-- Positions, the base index and the indices in the entries agree in every store reached by
successful steps, also right after a compaction or a reopening. -/
theorem coherent_of_reachable (h : raftLogSystem.ReachableVia SucceedsBelowMax s) :
    s.Coherent := .of_indexed (synced_indexed_of_reachable h).2

/-! ## A log of two entries -/

theorem exists_append (h : raftLogSystem.ReachableVia SucceedsBelowMax s)
    (hmax : BelowMax s.inner.nextIndex) (term : UInt64) (command : Command) (now : DateTime) :
    ∃ s', raftLogSystem.ReachableVia SucceedsBelowMax s' ∧
      s'.inner = s.inner.push (s.inner.newEntry term command now) := by
  obtain ⟨steps, hsteps⟩ := exists_gt
    (SerdeJson.entry.encodeLine (s.inner.newEntry term command now)).length
  have hrun := append_of_lt (s := s) rfl hsteps
  refine ⟨_, h.next (l := .call (.append term command now) steps) rfl ⟨?_, ?_⟩, ?_⟩
  · simp only [Succeeds, call, hrun]
    rfl
  · rintro op steps heq
    cases heq
    exact hmax
  · simp only [call, hrun, Prod.map_snd, id_eq]

theorem exists_webEntry : ∃ s, raftLogSystem.ReachableVia SucceedsBelowMax s ∧
    s.inner = ⟨[webEntry 1], 1⟩ := by
  have hstart : raftLogSystem.ReachableVia SucceedsBelowMax ⟨⟨[], 1⟩, fun _ => none⟩ := .start rfl
  exact exists_append hstart (by unfold BelowMax; decide) 1 (.deregisterJob "web") 0

theorem exists_webLog : ∃ s, raftLogSystem.ReachableVia SucceedsBelowMax s ∧
    s.inner = ⟨[webEntry 1, webEntry 2], 1⟩ := by
  obtain ⟨s, hs, hinner⟩ := exists_webEntry
  have hnext := exists_append hs (by rw [hinner]; unfold BelowMax; decide) 1
    (.deregisterJob "web") 0
  rw [hinner] at hnext
  exact hnext

end RaftLogStore

section Sample
attribute [local instance] SerdeJson.sample
open RaftLogStore

theorem openAt_eq_inner_web : ∃ s : RaftLogStore, s.inner = ⟨[webEntry 1, webEntry 2], 1⟩ ∧
    openAt s.files = .ok s.inner := by
  obtain ⟨s, hs, hinner⟩ := exists_webLog
  exact ⟨s, hinner, openAt_eq_inner (hs.mono fun _ _ h => h.1)⟩

theorem coherent_of_reachable_web : ∃ s : RaftLogStore,
    s.inner = ⟨[webEntry 1, webEntry 2], 1⟩ ∧ s.Coherent := by
  obtain ⟨s, hs, hinner⟩ := exists_webLog
  exact ⟨s, hinner, coherent_of_reachable hs⟩

end Sample
end NomadRs
