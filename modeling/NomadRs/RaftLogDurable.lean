import NomadRs.RaftLogRuns

/-!
# Harmless interruptions

`Records files disk` says that opening the files yields `disk`, and that `disk` is indexed. A
store is `Durable` when its files record what memory holds, or this and one more entry whose line
feed is missing: an append that got so far failed, but left its entry behind.

`Harmless` is the condition on a call or a crash that keeps a store durable. It depends on the
state before and on the number of steps alone, and lets through every interruption that does no
damage later in the run.
-/

open LineFile FileSystem

namespace NomadRs.RaftLogStore
variable [SerdeJson] {s s' : RaftLogStore} {files files' : RaftFiles} {disk inner : Inner}
  {entries : List RaftLogEntry} {bytes : Bytes}

/-! ## What the files record -/

/-- The lines of the entries, the last one with or without its line feed. -/
inductive Recorded : Bytes → List RaftLogEntry → Prop
  | whole (entries : List RaftLogEntry) : Recorded (SerdeJson.entry.encodeLines entries) entries
  | unterminated (before : List RaftLogEntry) (entry : RaftLogEntry) :
      Recorded (SerdeJson.entry.encodeLines before ++ SerdeJson.entry.encode entry)
        (before ++ [entry])

/-- Nothing stands between the end of the text and the last line feed. -/
def AtLineStart (bytes : Bytes) : Prop := bytes = [] ∨ bytes.getLast? = some lineFeed

theorem Recorded.decodeLines (h : Recorded bytes entries) :
    SerdeJson.entry.decodeLines bytes = .ok entries := by
  cases h with
  | whole => exact decodeLines_encodeLines _
  | unterminated before entry => exact decodeLines_unterminated before entry

theorem Recorded.eq_nil (h : Recorded bytes entries) (hnil : entries = []) : bytes = [] := by
  cases h with
  | whole => rw [hnil, encodeLines_nil]
  | unterminated before entry => simp at hnil

theorem atLineStart_encodeLines (entries : List RaftLogEntry) :
    AtLineStart (SerdeJson.entry.encodeLines entries) := by
  rcases List.eq_nil_or_concat entries with rfl | ⟨before, entry, rfl⟩
  · exact .inl rfl
  · right
    rw [List.concat_eq_append, encodeLines_concat, LineCodec.encodeLine, ← List.append_assoc,
      List.getLast?_concat]

theorem not_atLineStart_append (bytes : Bytes) (entry : RaftLogEntry) :
    ¬ AtLineStart (bytes ++ SerdeJson.entry.encode entry) := by
  have hne := SerdeJson.entry.encode_ne_nil entry
  rintro (h | h)
  · exact hne (List.append_eq_nil_iff.1 h).2
  · rw [List.getLast?_append_of_ne_nil _ hne] at h
    exact SerdeJson.entry.no_lineFeed entry (List.mem_of_getLast? h)

theorem Recorded.eq_of_atLineStart (h : Recorded bytes entries) (hstart : AtLineStart bytes) :
    bytes = SerdeJson.entry.encodeLines entries := by
  cases h with
  | whole => rfl
  | unterminated before entry => exact absurd hstart (not_atLineStart_append _ _)

theorem Recorded.take {n : ℕ} (h : (SerdeJson.entry.encodeLines entries).length ≤ n + 1) :
    Recorded ((SerdeJson.entry.encodeLines entries).take n) entries := by
  rcases Nat.lt_or_ge n (SerdeJson.entry.encodeLines entries).length with hlt | hge
  · obtain ⟨before, entry, rfl, htake⟩ := take_encodeLines_of_length
      (show (SerdeJson.entry.encodeLines entries).length = n + 1 by omega)
    rw [htake]
    exact .unterminated before entry
  · rw [List.take_of_length_le hge]
    exact .whole entries

structure Records (files : RaftFiles) (disk : Inner) : Prop where
  base : baseIndexOf files = .ok disk.baseIndex
  log : Recorded (logBytes files) disk.entries
  indexed : disk.Indexed

namespace Records

theorem openAt (h : Records files disk) : openAt files = .ok disk :=
  openAt_of_ok h.base h.log.decodeLines

theorem entriesOf (h : Records files disk) : entriesOf files = .ok disk.entries := by
  rw [entriesOf_eq, h.log.decodeLines]

theorem congr (h : Records files disk) (hsnap : files' .snap = files .snap)
    (hlog : logBytes files' = logBytes files) : Records files' disk :=
  ⟨(baseIndexOf_congr hsnap).trans h.base, hlog ▸ h.log, h.indexed⟩

theorem base_setLog (h : Records files disk) (bytes : Bytes) :
    baseIndexOf (RaftLogStore.setLog files bytes) = .ok disk.baseIndex :=
  (baseIndexOf_congr (setLog_snap _ _)).trans h.base

theorem setLog (h : Records files disk) (hlog : Recorded bytes entries)
    (hindexed : Inner.Indexed ⟨entries, disk.baseIndex⟩) :
    Records (setLog files bytes) ⟨entries, disk.baseIndex⟩ :=
  ⟨h.base_setLog bytes, by rwa [logBytes_setLog], hindexed⟩

theorem compacted {snapshot : RaftSnapshot}
    (hsnap : files .snap = some (SerdeJson.snapshot.encode snapshot))
    (hmax : BelowMax snapshot.lastIncludedIndex) (hlog : logBytes files = []) :
    Records files ⟨[], snapshot.lastIncludedIndex + 1⟩ :=
  ⟨baseIndexOf_of_snap hsnap, hlog ▸ .whole [], .reset hmax⟩

end Records

/-- The files record what memory holds, or one more entry. -/
inductive Durable (s : RaftLogStore) : Prop
  | synced : Records s.files s.inner → Durable s
  | ahead (entry : RaftLogEntry) : Records s.files (s.inner.push entry) →
      ¬ AtLineStart (logBytes s.files) → Durable s

namespace Durable

theorem exists_records (h : s.Durable) : ∃ disk, Records s.files disk ∧
    disk.baseIndex = s.inner.baseIndex ∧ s.inner.entries <+: disk.entries := by
  cases h with
  | synced hrec => exact ⟨_, hrec, rfl, List.prefix_rfl⟩
  | ahead entry hrec _ => exact ⟨_, hrec, rfl, List.prefix_append _ _⟩

theorem indexed (h : s.Durable) : s.inner.Indexed := by
  cases h with
  | synced hrec => exact hrec.indexed
  | ahead entry hrec _ =>
      have htake := hrec.indexed.take s.inner.entries.length
      simpa [Inner.push] using htake

theorem records_of_atLineStart (h : s.Durable) (hstart : AtLineStart (logBytes s.files)) :
    Records s.files s.inner ∧ logBytes s.files = SerdeJson.entry.encodeLines s.inner.entries := by
  cases h with
  | synced hrec => exact ⟨hrec, hrec.log.eq_of_atLineStart hstart⟩
  | ahead entry _ hnot => exact absurd hstart hnot

theorem congr (h : s.Durable) (hinner : s'.inner = s.inner)
    (hsnap : s'.files .snap = s.files .snap) (hlog : logBytes s'.files = logBytes s.files) :
    s'.Durable := by
  cases h with
  | synced hrec => exact .synced (hinner ▸ hrec.congr hsnap hlog)
  | ahead entry hrec hnot => exact .ahead entry (hinner ▸ hrec.congr hsnap hlog) (hlog ▸ hnot)

theorem reopened (hrec : Records files disk) (hs : reopened files = some s) : s.Durable := by
  obtain ⟨hinner, hfiles⟩ := reopened_eq_some.1 hs
  rw [hrec.openAt, Except.ok.injEq] at hinner
  subst hinner hfiles
  exact .synced hrec

end Durable

/-! ## The condition -/

def keptText (s : RaftLogStore) (fromIndex : UInt64) : Bytes :=
  SerdeJson.entry.encodeLines (s.inner.entries.take (s.inner.truncatePos fromIndex))

/-- Nothing is written, or at least the whole entry at the start of a line. -/
def AppendHarmless (s : RaftLogStore) (entry : RaftLogEntry) (steps : ℕ) : Prop :=
  steps ≤ 1 ∨ BelowMax s.inner.nextIndex ∧ AtLineStart (logBytes s.files) ∧
    (SerdeJson.entry.encode entry).length < steps

/-- The snapshot is not renamed yet, or its index leaves room for the next one and the log has
been recreated, or its old entries fit the new base index. -/
def CompactHarmless (s : RaftLogStore) (snapshot : RaftSnapshot) (steps : ℕ) (fits : Prop) : Prop :=
  steps < (SerdeJson.snapshot.encode snapshot).length + 2 ∨
    BelowMax snapshot.lastIncludedIndex ∧
      ((SerdeJson.snapshot.encode snapshot).length + 2 < steps ∨ entriesOf s.files = .ok [] ∨ fits)

def CallHarmless (s : RaftLogStore) (steps : ℕ) : RaftLogOp → Prop
  | .append term command now => s.AppendHarmless (s.inner.newEntry term command now) steps
  | .createSnapshot state lastIncludedTerm =>
    s.CompactHarmless ⟨state, s.inner.lastIndex, lastIncludedTerm⟩ steps False
  | .installSnapshot snapshot => s.CompactHarmless snapshot steps False
  | .truncate fromIndex =>
    s.inner.entries.length ≤ s.inner.truncatePos fromIndex ∨
      0 < steps ∧ (s.keptText fromIndex).length ≤ steps

/-- After a crash memory is read anew, so it may have run ahead of the files. -/
def CrashHarmless (s : RaftLogStore) (steps : ℕ) : RaftLogOp → Prop
  | .append term command now => s.AppendHarmless (s.inner.newEntry term command now) steps
  | .createSnapshot state lastIncludedTerm =>
    s.CompactHarmless ⟨state, s.inner.lastIndex, lastIncludedTerm⟩ steps
      (s.inner.lastIndex + 1 = s.inner.baseIndex)
  | .installSnapshot snapshot =>
    s.CompactHarmless snapshot steps (snapshot.lastIncludedIndex + 1 = s.inner.baseIndex)
  | .truncate fromIndex =>
    s.inner.entries.length ≤ s.inner.truncatePos fromIndex ∨
      steps = 0 ∨ (s.keptText fromIndex).length ≤ steps

def Harmless (s : RaftLogStore) : RaftLogEvent → Prop
  | .call op steps => s.CallHarmless steps op
  | .crash op steps => s.CrashHarmless steps op
  | .reopen => True

/-! ## Each operation -/

theorem Durable.append (h : s.Durable) {term : UInt64} {command : Command} {now : DateTime}
    {steps : ℕ} (hsteps : s.AppendHarmless (s.inner.newEntry term command now) steps) :
    (s.call (.append term command now) steps).2.Durable := by
  have hlen := length_encodeLine (c := SerdeJson.entry) (s.inner.newEntry term command now)
  rcases s.append_cases term command now steps rfl with
    ⟨hlt, hrun⟩ | ⟨hzero, hrun⟩ | ⟨n, hn, hlt, hrun⟩ <;>
    simp only [call, hrun, Prod.map_snd, id_eq]
  · rcases hsteps with hle | ⟨hmax, hstart, _⟩
    · omega
    · obtain ⟨hrec, hlog⟩ := h.records_of_atLineStart hstart
      rw [hlog, ← encodeLines_concat]
      exact .synced (hrec.setLog (.whole _) (hrec.indexed.push hmax term command now))
  · exact h
  · rcases hsteps with hle | ⟨hmax, hstart, hencode⟩
    · obtain rfl : n = 0 := by omega
      exact h.congr rfl (by simp) (by simp)
    · -- only the line feed is missing
      obtain ⟨hrec, hlog⟩ := h.records_of_atLineStart hstart
      have htake : (SerdeJson.entry.encodeLine (s.inner.newEntry term command now)).take n =
          SerdeJson.entry.encode (s.inner.newEntry term command now) := by
        rw [take_encodeLine (by omega), List.take_of_length_le (by omega)]
      rw [hlog, htake]
      refine .ahead (s.inner.newEntry term command now) ?_ ?_
      · exact hrec.setLog (.unterminated _ _) (hrec.indexed.push hmax term command now)
      · rw [logBytes_setLog]
        exact not_atLineStart_append _ _

/-- What the files record after a compaction that stopped at a harmless point: what they did
before, the old entries under the new base index, or the empty log behind the snapshot. -/
theorem Durable.compact (h : s.Durable) {op : RaftLogOp} {snapshot : RaftSnapshot} {steps : ℕ}
    {fits : Prop} (hop : s.snapshotOf op = some snapshot)
    (hsteps : s.CompactHarmless snapshot steps fits) :
    (s.call op steps).2.Durable ∨
      fits ∧ baseIndexOf (s.call op steps).2.files = .ok (snapshot.lastIncludedIndex + 1) ∧
        logBytes (s.call op steps).2.files = logBytes s.files := by
  have hkept : s.keptBy op = [] := by
    cases op with
    | createSnapshot state term => exact Inner.drop_truncateCount h.indexed.bound
    | _ => rfl
  rw [call_compact hop]
  obtain ⟨result, t, hrun, hcases⟩ := s.compact_cases snapshot (s.keptBy op) steps
  rw [hkept] at hcases
  rw [hrun]
  rcases hcases with ⟨hlt, _, hinner, hsnap, hlog⟩ | ⟨heq, _, hinner, hsnap, hlog⟩ |
    ⟨n, hn, _, hinner, hsnap, hlog⟩
  · exact .inl (h.congr hinner hsnap (by rw [logBytes, hlog, logBytes]))
  · rcases hsteps with hlt | ⟨hmax, hgt | hempty | hfits⟩
    · omega
    · omega
    · left
      obtain ⟨disk, hrec, _, _⟩ := h.exists_records
      have hnil : disk.entries = [] := Except.ok.inj (hrec.entriesOf.symm.trans hempty)
      refine .synced ?_
      rw [hinner]
      exact .compacted hsnap hmax (by rw [logBytes, hlog, ← logBytes, hrec.log.eq_nil hnil])
    · exact .inr ⟨hfits, baseIndexOf_of_snap hsnap, by rw [logBytes, hlog, logBytes]⟩
  · rcases hsteps with hlt | ⟨hmax, _⟩
    · omega
    · refine .inl (.synced ?_)
      rw [hinner]
      exact .compacted hsnap hmax (by simp [logBytes, hlog])

theorem Durable.truncate (h : s.Durable) (fromIndex : UInt64) {steps : ℕ}
    (hsteps : s.inner.entries.length ≤ s.inner.truncatePos fromIndex ∨
      0 < steps ∧ (s.keptText fromIndex).length ≤ steps) :
    (s.call (.truncate fromIndex) steps).2.Durable := by
  rcases s.truncate_cases fromIndex steps with
    ⟨_, hrun⟩ | ⟨hpos, ⟨hzero, hrun⟩ | ⟨n, hn, hrun⟩⟩ <;> simp only [call, hrun]
  · exact h
  · omega
  · obtain ⟨disk, hrec, hbase, _⟩ := h.exists_records
    have hlen : (s.keptText fromIndex).length ≤ n + 1 := by
      rcases hsteps with hle | ⟨_, hle⟩
      · omega
      · omega
    have hkept := h.indexed.take (s.inner.truncatePos fromIndex)
    rw [← hbase] at hkept
    have hnew := hrec.setLog (Recorded.take hlen) hkept
    rw [hbase] at hnew
    exact .synced hnew

/-- What a harmless crash leaves on disk can be opened. -/
theorem Durable.crash (h : s.Durable) {op : RaftLogOp} {steps : ℕ}
    (hsteps : s.CrashHarmless steps op) : ∃ disk, Records (s.call op steps).2.files disk := by
  obtain ⟨disk, hrec, hbase, hpre⟩ := h.exists_records
  have hcompact : ∀ snapshot, s.snapshotOf op = some snapshot → s.CompactHarmless snapshot steps
      (snapshot.lastIncludedIndex + 1 = s.inner.baseIndex) →
        ∃ disk, Records (s.call op steps).2.files disk := by
    intro snapshot hop hsteps
    rcases h.compact hop hsteps with hdurable | ⟨hfits, hbase', hlog⟩
    · obtain ⟨disk', hrec', _, _⟩ := hdurable.exists_records
      exact ⟨disk', hrec'⟩
    · refine ⟨disk, ?_, hlog ▸ hrec.log, hrec.indexed⟩
      rw [hbase', hfits, hbase]
  cases op with
  | append term command now =>
      obtain ⟨disk', hrec', _, _⟩ := (h.append hsteps).exists_records
      exact ⟨disk', hrec'⟩
  | createSnapshot state term => exact hcompact _ rfl hsteps
  | installSnapshot snapshot => exact hcompact _ rfl hsteps
  | truncate fromIndex =>
      rcases Nat.eq_zero_or_pos steps with rfl | hpos
      · rcases s.truncate_cases fromIndex 0 with
          ⟨_, hrun⟩ | ⟨_, ⟨_, hrun⟩ | ⟨n, hn, _⟩⟩
        · exact ⟨disk, by simpa only [call, hrun] using hrec⟩
        · exact ⟨disk, by simpa only [call, hrun] using hrec⟩
        · omega
      · have htruncate := h.truncate fromIndex
          (hsteps.imp_right fun hle => ⟨hpos, hle.resolve_left (by omega)⟩)
        obtain ⟨disk', hrec', _, _⟩ := htruncate.exists_records
        exact ⟨disk', hrec'⟩

theorem Durable.call (h : s.Durable) {op : RaftLogOp} {steps : ℕ}
    (hsteps : s.CallHarmless steps op) : (s.call op steps).2.Durable := by
  cases op with
  | append term command now => exact h.append hsteps
  | createSnapshot state term => exact (h.compact rfl hsteps).resolve_right fun hno => hno.1
  | installSnapshot snapshot => exact (h.compact rfl hsteps).resolve_right fun hno => hno.1
  | truncate fromIndex => exact h.truncate fromIndex hsteps

theorem harmless_of_succeeds {event : RaftLogEvent} (hs : s.Synced) (hindexed : s.inner.Indexed)
    (h : s.SucceedsBelowMax event) : s.Harmless event := by
  have hcompact : ∀ op steps snapshot, s.snapshotOf op = some snapshot →
      (s.call op steps).1 = .ok () → BelowMax snapshot.lastIncludedIndex →
        s.CompactHarmless snapshot steps False := by
    intro op steps snapshot hop hok hmax
    rw [call_compact hop] at hok
    obtain ⟨result, t, hrun, hcases⟩ := s.compact_cases snapshot (s.keptBy op) steps
    rw [hrun] at hok
    rcases hcases with ⟨_, rfl, _⟩ | ⟨_, rfl, _⟩ | ⟨n, hn, _⟩
    · cases hok
    · cases hok
    · exact .inr ⟨hmax, .inl (by omega)⟩
  cases event with
  | crash op steps => exact h.1.elim
  | reopen => trivial
  | call op steps =>
      have hok : (s.call op steps).1 = .ok () := h.1
      have hmax := h.2 op steps rfl
      cases op with
      | createSnapshot state term => exact hcompact _ _ _ rfl hok hindexed.lastIndex_belowMax
      | installSnapshot snapshot => exact hcompact _ _ _ rfl hok hmax
      | append term command now =>
          rcases s.append_cases term command now steps rfl with
            ⟨hlt, hrun⟩ | ⟨_, hrun⟩ | ⟨_, _, _, hrun⟩ <;> simp only [call, hrun] at hok
          · refine .inr ⟨hmax, hs.log ▸ atLineStart_encodeLines _, ?_⟩
            rw [length_encodeLine] at hlt
            omega
          · cases hok
          · cases hok
      | truncate fromIndex =>
          rcases s.truncate_cases fromIndex steps with
            ⟨hle, _⟩ | ⟨_, ⟨_, hrun⟩ | ⟨n, hn, hrun⟩⟩
          · exact .inl hle
          · simp only [call, hrun] at hok
            cases hok
          · simp only [call, hrun] at hok
            have hlen := outcome_eq_ok.1 hok
            exact .inr ⟨by omega, by rw [keptText]; omega⟩

theorem reachable_harmless (h : raftLogSystem.ReachableVia SucceedsBelowMax s) :
    raftLogSystem.ReachableVia Harmless s := by
  induction h with
  | start hs => exact .start hs
  | step h hguard hstep ih =>
      obtain ⟨hsynced, hindexed⟩ := synced_indexed_of_reachable h
      exact ih.next hstep (harmless_of_succeeds hsynced hindexed hguard)

/-- A run in which every interruption is harmless keeps the store durable. -/
theorem durable_of_reachable (h : raftLogSystem.ReachableVia Harmless s) : s.Durable := by
  refine h.invariant Durable (fun s hs => ?_) fun s event s' hs hguard hstep => ?_
  · rw [start_eq hs]
    exact .synced ⟨rfl, .whole [], .new⟩
  · cases event with
    | call op steps =>
        cases hstep
        exact hs.call hguard
    | crash op steps =>
        obtain ⟨disk, hrec⟩ := hs.crash hguard
        exact .reopened hrec hstep
    | reopen =>
        obtain ⟨disk, hrec, _, _⟩ := hs.exists_records
        exact .reopened hrec hstep

end NomadRs.RaftLogStore
