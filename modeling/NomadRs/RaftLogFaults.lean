import NomadRs.RaftLogDurable

/-!
# Interrupted operations

What reopening finds after a compaction, a truncation or an append that was stopped after any
number of steps, in every store reached by harmless interruptions. Each result is exact: it
names the numbers of steps for which the promise holds. The promises break between the renaming
of a new snapshot and the emptying of the old log, while a truncated log is rewritten, and
inside the line of an entry.
-/

open LineFile FileSystem

namespace NomadRs.RaftLogStore

section Promises
variable [SerdeJson]

/-- The files open, positions and indices agree, and the next append gets a fresh index. -/
def SafeOpen (files : RaftFiles) : Prop :=
  ∃ inner, openAt files = .ok inner ∧
    (∀ index entry, inner.get index = some entry → entry.index = index) ∧
    ∀ term command now steps entry,
      (run { inner, files } (append term command now) steps).1 = .ok entry →
        (∀ entries, entriesOf files = .ok entries → ∀ old ∈ entries, old.index < entry.index) ∧
        ∀ data snapshot, files .snap = some data →
          SerdeJson.snapshot.decode data = .ok snapshot → snapshot.lastIncludedIndex < entry.index

/-- The files open, with all entries below the index. -/
def KeepsBelow (s : RaftLogStore) (fromIndex : UInt64) (files : RaftFiles) : Prop :=
  ∃ disk, openAt files = .ok disk ∧
    (s.inner.entries.filter fun entry => entry.index < fromIndex) <+: disk.entries

/-- The files open, with every entry that memory holds. -/
def Recovers (s : RaftLogStore) : Prop :=
  ∃ disk, openAt s.files = .ok disk ∧ s.inner.entries <+: disk.entries

def Appends (s s' : RaftLogStore) : Prop :=
  ∃ term command now steps entry, s.run (append term command now) steps = (.ok entry, s')

variable {s s' : RaftLogStore} {files : RaftFiles} {disk : Inner}

/-! ## Compaction -/

theorem nextIndex_of_append {term : UInt64} {command : Command} {now : DateTime} {steps : ℕ}
    {entry : RaftLogEntry} (h : (s.run (append term command now) steps).1 = .ok entry) :
    entry.index = s.inner.nextIndex := by
  rcases s.append_cases term command now steps rfl with
    ⟨_, hrun⟩ | ⟨_, hrun⟩ | ⟨_, _, _, hrun⟩ <;> rw [hrun] at h <;> cases h
  rfl

theorem Records.safeOpen (h : Records files disk) : SafeOpen files := by
  refine ⟨disk, h.openAt, fun _ _ => h.indexed.index_of_get, ?_⟩
  intro term command now steps entry hok
  have hnext := Inner.toNat_nextIndex h.indexed.bound
  rw [nextIndex_of_append hok]
  simp only [UInt64.lt_iff_toNat_lt, hnext]
  constructor
  · intro entries hentries old hold
    rw [h.entriesOf, Except.ok.injEq] at hentries
    subst hentries
    exact h.indexed.index_lt_of_mem hold
  · intro data snapshot hdata hsnapshot
    -- the base index is the snapshot's index plus one, and it has not wrapped around
    have hbase : disk.baseIndex = snapshot.lastIncludedIndex + 1 := by
      have hok := h.base
      rw [baseIndexOf, hdata] at hok
      simp only [hsnapshot] at hok
      exact (Except.ok.inj hok).symm
    have hpos := h.indexed.base_pos
    have hlt := snapshot.lastIncludedIndex.toNat_lt
    have hwrap := congrArg UInt64.toNat hbase
    rw [UInt64.toNat_add, UInt64.toNat_one] at hwrap
    omega

theorem not_safeOpen_of_misfit {baseIndex : UInt64} (hrec : Records s.files disk)
    (hbase : baseIndexOf files = .ok baseIndex) (hlog : logBytes files = logBytes s.files)
    (hne : disk.entries ≠ []) (hfits : baseIndex ≠ disk.baseIndex) : ¬ SafeOpen files := by
  rintro ⟨inner, hopen, hget, -⟩
  have hold := openAt_of_ok hbase (hlog ▸ hrec.log.decodeLines)
  obtain rfl : _ = inner := Except.ok.inj (hold.symm.trans hopen)
  cases hdisk : disk.entries with
  | nil => exact hne hdisk
  | cons first rest =>
      have hfirst : Inner.get ⟨disk.entries, baseIndex⟩ baseIndex = some first := by
        rw [Inner.get_eq, if_neg (Nat.lt_irrefl _), Nat.sub_self, hdisk]
        rfl
      have hzero : disk.entries[0]? = some first := by rw [hdisk]; rfl
      have hindex := hrec.indexed.index_of_getElem? hzero
      rw [hget _ _ hfirst, Nat.add_zero, UInt64.toNat_inj] at hindex
      exact hfits hindex

theorem not_safeOpen_of_max {snapshot : RaftSnapshot}
    (hsnap : files .snap = some (SerdeJson.snapshot.encode snapshot))
    (hmax : ¬ BelowMax snapshot.lastIncludedIndex) : ¬ SafeOpen files := by
  rintro ⟨inner, _, _, hfresh⟩
  obtain ⟨steps, hsteps⟩ := exists_gt
    (SerdeJson.entry.encodeLine (inner.newEntry 0 (.deregisterJob "") 0)).length
  have happend := append_of_lt (s := ⟨inner, files⟩) rfl hsteps
  have hlt := (hfresh _ _ _ _ _ (congrArg Prod.fst happend)).2 _ _ hsnap
    (SerdeJson.snapshot.decode_encode snapshot)
  have hle := UInt64.toNat_lt (inner.newEntry 0 (.deregisterJob "") 0).index
  rw [UInt64.lt_iff_toNat_lt] at hlt
  unfold BelowMax at hmax
  simp only at hlt
  omega

/-- A compaction that stops at a harmless point leaves files that are safe to open, and one that
stops elsewhere does not. -/
theorem Durable.safeOpen_compact_iff (h : s.Durable) {op : RaftLogOp} {snapshot : RaftSnapshot}
    (hop : s.snapshotOf op = some snapshot) (steps : ℕ) :
    SafeOpen (s.call op steps).2.files ↔ s.CompactHarmless snapshot steps
      (snapshot.lastIncludedIndex + 1 = s.inner.baseIndex) := by
  obtain ⟨disk, hrec, hbase, _⟩ := h.exists_records
  constructor
  · intro hsafe
    by_contra hharm
    unfold CompactHarmless at hharm
    push Not at hharm
    obtain ⟨hsteps, hharm⟩ := hharm
    rw [call_compact hop] at hsafe
    obtain ⟨result, t, hrun, hcases⟩ := s.compact_cases snapshot (s.keptBy op) steps
    rw [hrun] at hsafe
    rcases hcases with ⟨hlt, _⟩ | ⟨_, _, _, hsnap, hlog⟩ | ⟨n, hn, _, _, hsnap, _⟩
    · omega
    · by_cases hmax : BelowMax snapshot.lastIncludedIndex
      · obtain ⟨_, hentries, hfits⟩ := hharm hmax
        refine not_safeOpen_of_misfit hrec (baseIndexOf_of_snap hsnap)
          (by rw [logBytes, hlog, logBytes]) (fun hnil => hentries ?_) (hbase ▸ hfits) hsafe
        rw [hrec.entriesOf, hnil]
      · exact not_safeOpen_of_max hsnap hmax hsafe
    · by_cases hmax : BelowMax snapshot.lastIncludedIndex
      · have hgap := (hharm hmax).1
        omega
      · exact not_safeOpen_of_max hsnap hmax hsafe
  · intro hharm
    rcases h.compact hop hharm with hdurable | ⟨hfits, hbase', hlog⟩
    · obtain ⟨_, hrec', _, _⟩ := hdurable.exists_records
      exact hrec'.safeOpen
    · have hrec' : Records (s.call op steps).2.files disk :=
        ⟨by rw [hbase', hfits, hbase], hlog ▸ hrec.log, hrec.indexed⟩
      exact hrec'.safeOpen

/-- Files are safe to open after every run of harmless interruptions, and a further compaction
that stops anywhere leaves them so exactly when it stops at a harmless point. -/
theorem compaction_safe_iff (h : raftLogSystem.ReachableVia Harmless s) :
    SafeOpen s.files ∧ ∀ op snapshot steps, s.snapshotOf op = some snapshot →
      (SafeOpen (s.call op steps).2.files ↔ s.CompactHarmless snapshot steps
        (snapshot.lastIncludedIndex + 1 = s.inner.baseIndex)) := by
  have hdurable := durable_of_reachable h
  obtain ⟨_, hrec, _, _⟩ := hdurable.exists_records
  exact ⟨hrec.safeOpen, fun _ _ steps hop => hdurable.safeOpen_compact_iff hop steps⟩

/-! ## Truncation -/

theorem Durable.keepsBelow_iff (hc : SerdeJson.entry.SelfDelimiting) (h : s.Durable)
    (fromIndex : UInt64) (steps : ℕ) :
    s.KeepsBelow fromIndex (s.call (.truncate fromIndex) steps).2.files ↔
      s.CrashHarmless steps (.truncate fromIndex) := by
  obtain ⟨disk, hrec, hbase, hpre⟩ := h.exists_records
  have hkept := h.indexed.take_truncatePos_eq_filter fromIndex
  have hbefore : s.KeepsBelow fromIndex s.files :=
    ⟨disk, hrec.openAt, hkept ▸ (List.take_prefix _ _).trans hpre⟩
  rcases s.truncate_cases fromIndex steps with
    ⟨hle, hrun⟩ | ⟨hlt, ⟨hzero, hrun⟩ | ⟨n, hn, hrun⟩⟩ <;> simp only [RaftLogStore.call, hrun]
  · exact ⟨fun _ => .inl hle, fun _ => hbefore⟩
  · exact ⟨fun _ => .inr (.inl hzero), fun _ => hbefore⟩
  · have hlines := hc.recovers_take_iff
      (s.inner.entries.take (s.inner.truncatePos fromIndex)) n
    constructor
    · rintro ⟨opened, hopen, hprefix⟩
      rw [openAt_eq_ok (hrec.base_setLog _), logBytes_setLog] at hopen
      have hle := hlines.1 ⟨opened.entries, hopen.1, hkept ▸ hprefix⟩
      exact .inr (.inr (by rw [keptText]; omega))
    · rintro (hle | hzero | hle)
      · omega
      · omega
      · rw [keptText, hn] at hle
        obtain ⟨entries, hdecode, hprefix⟩ := hlines.2 hle
        have hopen := openAt_of_ok (hrec.base_setLog _) (by rwa [logBytes_setLog])
        exact ⟨⟨entries, disk.baseIndex⟩, hopen, hkept ▸ hprefix⟩

/-- Memory is cut before the file is, so an early failure leaves the two apart. -/
theorem Durable.agrees_iff (hc : SerdeJson.entry.SelfDelimiting) (h : s.Durable)
    (fromIndex : UInt64) (steps : ℕ) :
    (∀ e, (s.call (.truncate fromIndex) steps).1 = .error e →
      openAt (s.call (.truncate fromIndex) steps).2.files =
        .ok (s.call (.truncate fromIndex) steps).2.inner) ↔
      s.CallHarmless steps (.truncate fromIndex) := by
  obtain ⟨disk, hrec, hbase, hpre⟩ := h.exists_records
  rcases s.truncate_cases fromIndex steps with
    ⟨hle, hrun⟩ | ⟨hlt, ⟨hzero, hrun⟩ | ⟨n, hn, hrun⟩⟩ <;> simp only [RaftLogStore.call, hrun]
  · exact ⟨fun _ => .inl hle, fun _ _ h => by cases h⟩
  · constructor
    · intro hagree
      have hopen := hagree _ rfl
      rw [hrec.openAt, Except.ok.injEq] at hopen
      have hlen := hpre.length_le
      rw [hopen, List.length_take] at hlen
      omega
    · rintro (hle | ⟨hpos, _⟩)
      · omega
      · omega
  · have hlines := hc.recovers_take_iff
      (s.inner.entries.take (s.inner.truncatePos fromIndex)) n
    constructor
    · intro hagree
      refine .inr ⟨by omega, ?_⟩
      rw [keptText]
      by_contra hshort
      have hopen := hagree (.io .other) (if_neg (by omega))
      rw [openAt_eq_ok (hrec.base_setLog _), logBytes_setLog] at hopen
      have hle := hlines.1 ⟨_, hopen.1, List.prefix_rfl⟩
      omega
    · rintro (hle | ⟨_, hle⟩) e _
      · omega
      · rw [keptText, hn] at hle
        rw [openAt_eq_ok (hrec.base_setLog _), logBytes_setLog]
        exact ⟨decodeLines_take hle, hbase⟩

/-- What a truncation promises, in every store reached by harmless interruptions: the entries
below the index survive a crash, and after a failure memory is what reopening finds. Both hold
exactly if nothing has to be done or all of the text but its last line feed is written, and the
first one also if the file was not touched. -/
theorem truncate_recovers_iff (hc : SerdeJson.entry.SelfDelimiting)
    (h : raftLogSystem.ReachableVia Harmless s) (fromIndex : UInt64) (steps : ℕ) :
    (s.KeepsBelow fromIndex (s.call (.truncate fromIndex) steps).2.files ↔
      s.inner.entries.length ≤ s.inner.truncatePos fromIndex ∨ steps = 0 ∨
        (s.keptText fromIndex).length ≤ steps) ∧
    ((∀ e, (s.call (.truncate fromIndex) steps).1 = .error e →
      openAt (s.call (.truncate fromIndex) steps).2.files =
        .ok (s.call (.truncate fromIndex) steps).2.inner) ↔
      s.inner.entries.length ≤ s.inner.truncatePos fromIndex ∨
        0 < steps ∧ (s.keptText fromIndex).length ≤ steps) := by
  have hdurable := durable_of_reachable h
  exact ⟨hdurable.keepsBelow_iff hc fromIndex steps, hdurable.agrees_iff hc fromIndex steps⟩

/-! ## Appending -/

variable {inner : Inner} {baseIndex : UInt64}

theorem recovers_iff (hbase : baseIndexOf files = .ok baseIndex) :
    Recovers ⟨inner, files⟩ ↔ ∃ entries,
      SerdeJson.entry.decodeLines (logBytes files) = .ok entries ∧ inner.entries <+: entries := by
  constructor
  · rintro ⟨disk, hopen, hpre⟩
    exact ⟨disk.entries, ((openAt_eq_ok hbase).1 hopen).1, hpre⟩
  · rintro ⟨entries, hdecode, hpre⟩
    exact ⟨⟨entries, baseIndex⟩, openAt_of_ok hbase hdecode, hpre⟩

theorem not_recovers (hbase : baseIndexOf files = .ok baseIndex)
    (h : ∃ e, SerdeJson.entry.decodeLines (logBytes files) = .error e) :
    ¬ Recovers ⟨inner, files⟩ := by
  rw [recovers_iff hbase]
  rintro ⟨entries, hdecode, _⟩
  obtain ⟨e, he⟩ := h
  rw [he] at hdecode
  cases hdecode

theorem call_torn_append {term : UInt64} {command : Command} {now : DateTime} {k : ℕ}
    (hk : k ≤ (SerdeJson.entry.encode (s.inner.newEntry term command now)).length) :
    s.call (.append term command now) (k + 1) = (.error (.io .other),
      ⟨s.inner, setLog s.files (logBytes s.files ++
        (SerdeJson.entry.encode (s.inner.newEntry term command now)).take k)⟩) := by
  have hlen := length_encodeLine (c := SerdeJson.entry) (s.inner.newEntry term command now)
  rcases s.append_cases term command now (k + 1) rfl with
    ⟨hlt, _⟩ | ⟨hzero, _⟩ | ⟨n, hn, _, hrun⟩
  · omega
  · omega
  · obtain rfl : n = k := by omega
    rw [call, hrun, take_encodeLine hk]
    rfl

theorem appended_of_appends (h : Appends s s') : ∃ entry,
    s'.inner.entries = s.inner.entries ++ [entry] ∧
      logBytes s'.files = logBytes s.files ++ SerdeJson.entry.encodeLine entry ∧
      s'.files .snap = s.files .snap := by
  obtain ⟨term, command, now, steps, entry, hrun⟩ := h
  rcases s.append_cases term command now steps rfl with
    ⟨_, hrun'⟩ | ⟨_, hrun'⟩ | ⟨_, _, _, hrun'⟩ <;> rw [hrun'] at hrun <;> cases hrun
  exact ⟨_, rfl, by simp, by simp⟩

theorem appended_of_transGen (h : Relation.TransGen Appends s s') : ∃ entry entries,
    s'.inner.entries = s.inner.entries ++ entry :: entries ∧
      logBytes s'.files = logBytes s.files ++ SerdeJson.entry.encodeLines (entry :: entries) ∧
      s'.files .snap = s.files .snap := by
  induction h with
  | single h =>
      obtain ⟨entry, hentries, hlog, hsnap⟩ := appended_of_appends h
      exact ⟨entry, [], hentries, by rw [hlog]; simp [LineCodec.encodeLines], hsnap⟩
  | tail _ h ih =>
      obtain ⟨entry, entries, hentries, hlog, hsnap⟩ := ih
      obtain ⟨last, hentries', hlog', hsnap'⟩ := appended_of_appends h
      refine ⟨entry, entries ++ [last], ?_, ?_, hsnap'.trans hsnap⟩
      · rw [hentries', hentries, List.append_assoc, List.cons_append]
      · rw [hlog', hlog, ← List.cons_append, encodeLines_concat, List.append_assoc]

/-- The log is at the start of a line and holds what memory holds, or a last entry lacks its
line feed. -/
theorem Durable.logBytes_cases (h : s.Durable) :
    (AtLineStart (logBytes s.files) ∧
      logBytes s.files = SerdeJson.entry.encodeLines s.inner.entries) ∨
    ¬ AtLineStart (logBytes s.files) ∧ ∃ before last, logBytes s.files =
      SerdeJson.entry.encodeLines before ++ SerdeJson.entry.encode last ∧
        s.inner.entries <+: before ++ [last] := by
  by_cases hstart : AtLineStart (logBytes s.files)
  · exact .inl ⟨hstart, (h.records_of_atLineStart hstart).2⟩
  · obtain ⟨disk, hrec, _, hpre⟩ := h.exists_records
    refine .inr ⟨hstart, ?_⟩
    have hlog := hrec.log
    generalize logBytes s.files = bytes at hstart hlog
    generalize disk.entries = entries at hlog hpre
    cases hlog with
    | whole => exact absurd (atLineStart_encodeLines _) hstart
    | unterminated before last => exact ⟨before, last, rfl, hpre⟩

variable {term : UInt64} {command : Command} {now : DateTime} {k : ℕ}

theorem Durable.recovers_torn_iff (hc : SerdeJson.entry.SelfDelimiting) (h : s.Durable)
    (hk : k ≤ (SerdeJson.entry.encode (s.inner.newEntry term command now)).length) :
    (s.call (.append term command now) (k + 1)).2.Recovers ↔ k = 0 ∨
      AtLineStart (logBytes s.files) ∧
        k = (SerdeJson.entry.encode (s.inner.newEntry term command now)).length := by
  obtain ⟨disk, hrec, _, hpre⟩ := h.exists_records
  rw [call_torn_append hk]
  dsimp only
  set entry := s.inner.newEntry term command now
  have htake := List.take_prefix k (SerdeJson.entry.encode entry)
  have hbase := hrec.base_setLog (logBytes s.files ++ (SerdeJson.entry.encode entry).take k)
  rcases Nat.eq_zero_or_pos k with rfl | hpos
  · refine iff_of_true ?_ (.inl rfl)
    rw [recovers_iff hbase, logBytes_setLog, List.take_zero, List.append_nil]
    exact ⟨disk.entries, hrec.log.decodeLines, hpre⟩
  rcases h.logBytes_cases with ⟨hstart, hlog⟩ | ⟨hstart, before, last, hlog, _⟩
  · rcases hk.lt_or_eq with hlt | rfl
    · refine iff_of_false (not_recovers hbase ?_) (by omega)
      rw [logBytes_setLog, hlog]
      exact hc.decodeLines_torn _ hpos hlt
    · refine iff_of_true ?_ (.inr ⟨hstart, rfl⟩)
      rw [recovers_iff hbase, logBytes_setLog, hlog, List.take_length, decodeLines_unterminated]
      exact ⟨_, rfl, List.prefix_append _ _⟩
  · have hno : ¬ (k = 0 ∨ AtLineStart (logBytes s.files) ∧
        k = (SerdeJson.entry.encode entry).length) := by
      rintro (hzero | ⟨hline, _⟩)
      · omega
      · exact hstart hline
    refine iff_of_false (not_recovers hbase ?_) hno
    rw [logBytes_setLog, hlog, List.append_assoc]
    exact hc.decodeLines_append before List.prefix_rfl (SerdeJson.entry.encode_ne_nil last) htake
      (.inr (by simp [SerdeJson.entry.encode_ne_nil]; omega))

theorem Durable.recovers_later_iff (hc : SerdeJson.entry.SelfDelimiting) (h : s.Durable)
    (hk : k ≤ (SerdeJson.entry.encode (s.inner.newEntry term command now)).length)
    (hlater : Relation.TransGen Appends (s.call (.append term command now) (k + 1)).2 s') :
    s'.Recovers ↔ k = 0 ∧ AtLineStart (logBytes s.files) := by
  obtain ⟨disk, hrec, _, _⟩ := h.exists_records
  rw [call_torn_append hk] at hlater
  obtain ⟨inner, files⟩ := s'
  set entry := s.inner.newEntry term command now
  obtain ⟨next, rest, hentries, hlog', hsnap⟩ := appended_of_transGen hlater
  have hbase := (baseIndexOf_congr hsnap).trans (hrec.base_setLog _)
  rw [logBytes_setLog] at hlog'
  rcases h.logBytes_cases with ⟨hstart, hlog⟩ | ⟨hstart, before, last, hlog, _⟩
  · rcases Nat.eq_zero_or_pos k with rfl | hpos
    · refine iff_of_true ?_ ⟨rfl, hstart⟩
      rw [List.take_zero, List.append_nil, hlog, ← encodeLines_append] at hlog'
      rw [recovers_iff hbase, hlog', decodeLines_encodeLines, hentries]
      exact ⟨_, rfl, List.prefix_rfl⟩
    · refine iff_of_false (not_recovers hbase ?_) (by omega)
      rw [hlog', hlog, List.append_assoc]
      exact hc.decodeLines_glued _ rest (List.take_prefix k _)
        (by simp [SerdeJson.entry.encode_ne_nil]; omega)
  · refine iff_of_false (not_recovers hbase ?_) fun hno => hstart hno.2
    rw [hlog', hlog, List.append_assoc, List.append_assoc]
    exact hc.decodeLines_trailing before rest (List.take_prefix k _) next

/-- Reopening finds every acknowledged entry in every store reached by harmless interruptions.
After a further append that stopped within its line it still does so exactly if nothing was
written, or all but the line feed of a line of its own, and after later successful appends
exactly if nothing was written to a log that ends with a line feed. -/
theorem torn_append_recovers_iff (hc : SerdeJson.entry.SelfDelimiting)
    (h : raftLogSystem.ReachableVia Harmless s) :
    s.Recovers ∧ ∀ term command now k,
      k ≤ (SerdeJson.entry.encode (s.inner.newEntry term command now)).length →
        ((s.call (.append term command now) (k + 1)).2.Recovers ↔ k = 0 ∨
          AtLineStart (logBytes s.files) ∧
            k = (SerdeJson.entry.encode (s.inner.newEntry term command now)).length) ∧
        ∀ s', Relation.TransGen Appends (s.call (.append term command now) (k + 1)).2 s' →
          (s'.Recovers ↔ k = 0 ∧ AtLineStart (logBytes s.files)) := by
  have hdurable := durable_of_reachable h
  obtain ⟨disk, hrec, _, hpre⟩ := hdurable.exists_records
  refine ⟨⟨disk, hrec.openAt, hpre⟩, fun term command now k hk => ⟨?_, fun s' hlater => ?_⟩⟩
  · exact hdurable.recovers_torn_iff hc hk
  · exact hdurable.recovers_later_iff hc hk hlater

end Promises

/-! ## A log of two entries, interrupted -/

section Sample
attribute [local instance] SerdeJson.sample

theorem sample_selfDelimiting : SerdeJson.entry.SelfDelimiting :=
  entryTable.selfDelimiting _

theorem encode_emptySnapshot : SerdeJson.snapshot.encode emptySnapshot = snapshotText :=
  snapshotTable.encode_of_text (if_pos rfl)

theorem compaction_safe_iff_web : ∃ s : RaftLogStore,
    s.inner = ⟨[webEntry 1, webEntry 2], 1⟩ ∧ SafeOpen s.files ∧
      SafeOpen (s.call (.createSnapshot .new 1) (snapshotText.length + 3)).2.files := by
  obtain ⟨s, hs, hinner⟩ := exists_webLog
  obtain ⟨hsafe, hiff⟩ := compaction_safe_iff (reachable_harmless hs)
  have hsnapshot : s.snapshotOf (.createSnapshot .new 1) = some emptySnapshot := by
    rw [snapshotOf, hinner]
    rfl
  refine ⟨s, hinner, hsafe, (hiff _ _ _ hsnapshot).2 (.inr ⟨?_, .inl ?_⟩)⟩
  · unfold BelowMax
    decide
  · rw [encode_emptySnapshot]
    omega

/-- A crash between the renaming of the snapshot and the emptying of the log. -/
theorem compaction_unsafe : ¬ ∀ s : RaftLogStore, raftLogSystem.Reachable s →
    s.inner = ⟨[webEntry 1, webEntry 2], 1⟩ →
      SafeOpen (s.call (.createSnapshot .new 1) (snapshotText.length + 2)).2.files := by
  intro h
  obtain ⟨s, hs, hinner⟩ := exists_webLog
  have hdurable := durable_of_reachable (reachable_harmless hs)
  have hsnapshot : s.snapshotOf (.createSnapshot .new 1) = some emptySnapshot := by
    rw [snapshotOf, hinner]
    rfl
  have hsafe := h s (hs.mono fun _ _ _ => trivial) hinner
  rw [hdurable.safeOpen_compact_iff hsnapshot, CompactHarmless, encode_emptySnapshot] at hsafe
  obtain ⟨disk, hrec, _, hpre⟩ := hdurable.exists_records
  rcases hsafe with hlt | ⟨_, hlt | hempty | hfits⟩
  · omega
  · omega
  · rw [hrec.entriesOf, Except.ok.injEq] at hempty
    rw [hempty, hinner] at hpre
    simp at hpre
  · rw [hinner] at hfits
    exact absurd hfits (by decide)

theorem encode_webEntry : SerdeJson.entry.encode (webEntry 1) = firstText :=
  entryTable.encode_of_text (if_pos rfl)

theorem encode_secondEntry : SerdeJson.entry.encode (webEntry 2) = secondText := by
  have hne : webEntry 2 ≠ webEntry 1 := fun h => absurd (congrArg RaftLogEntry.index h) (by decide)
  exact entryTable.encode_of_text ((if_neg hne).trans (if_pos rfl))

theorem keptText_web {s : RaftLogStore} (hinner : s.inner = ⟨[webEntry 1, webEntry 2], 1⟩) :
    s.keptText 2 = firstText ++ [lineFeed] := by
  rw [keptText, hinner, show Inner.truncatePos _ 2 = 1 from by decide, List.take_succ_cons,
    List.take_zero, encodeLines_cons, encode_webEntry]
  rfl

theorem truncate_recovers_iff_web : ∃ s : RaftLogStore,
    s.inner = ⟨[webEntry 1, webEntry 2], 1⟩ ∧
      s.KeepsBelow 2 (s.call (.truncate 2) (firstText.length + 1)).2.files := by
  obtain ⟨s, hs, hinner⟩ := exists_webLog
  refine ⟨s, hinner, (truncate_recovers_iff sample_selfDelimiting (reachable_harmless hs) 2 _).1.2
    (.inr (.inr ?_))⟩
  rw [keptText_web hinner, List.length_append, List.length_singleton]

/-- A crash right after the log file was emptied for its rewriting. -/
theorem truncate_loses_retained : ¬ ∀ s : RaftLogStore, raftLogSystem.Reachable s →
    s.inner = ⟨[webEntry 1, webEntry 2], 1⟩ →
      s.KeepsBelow 2 (s.call (.truncate 2) 1).2.files := by
  intro h
  obtain ⟨s, hs, hinner⟩ := exists_webLog
  have hdurable := durable_of_reachable (reachable_harmless hs)
  have hkeeps := h s (hs.mono fun _ _ _ => trivial) hinner
  rw [hdurable.keepsBelow_iff sample_selfDelimiting, CrashHarmless, keptText_web hinner,
    hinner] at hkeeps
  rcases hkeeps with hle | hzero | hle
  · exact absurd hle (by decide)
  · cases hzero
  · exact absurd hle (by decide +kernel)

theorem torn_append_recovers_iff_web : ∃ s : RaftLogStore, s.inner = ⟨[webEntry 1], 1⟩ ∧
    s.Recovers ∧ (s.call (.append 1 (.deregisterJob "web") 0) 1).2.Recovers := by
  obtain ⟨s, hs, hinner⟩ := exists_webEntry
  obtain ⟨hrec, htorn⟩ := torn_append_recovers_iff sample_selfDelimiting (reachable_harmless hs)
  exact ⟨s, hinner, hrec, (htorn 1 (.deregisterJob "web") 0 0 (Nat.zero_le _)).1.2 (.inl rfl)⟩

/-- A crash after the first byte of the second line. -/
theorem torn_append_poisons : ¬ ∀ s : RaftLogStore, raftLogSystem.Reachable s →
    s.inner = ⟨[webEntry 1], 1⟩ →
      (s.call (.append 1 (.deregisterJob "web") 0) 2).2.Recovers := by
  intro h
  obtain ⟨s, hs, hinner⟩ := exists_webEntry
  have hdurable := durable_of_reachable (reachable_harmless hs)
  have hrec := h s (hs.mono fun _ _ _ => trivial) hinner
  have hentry : s.inner.newEntry 1 (.deregisterJob "web") 0 = webEntry 2 := by
    rw [hinner]
    rfl
  have hlong : 1 < secondText.length := by decide +kernel
  rw [hdurable.recovers_torn_iff sample_selfDelimiting (by
    rw [hentry, encode_secondEntry]; omega), hentry, encode_secondEntry] at hrec
  rcases hrec with hzero | ⟨_, hone⟩
  · cases hzero
  · omega

end Sample
end NomadRs.RaftLogStore
