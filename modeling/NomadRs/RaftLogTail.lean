import NomadRs.RaftLogRuns

/-!
# The tail of a compacted log

Elections compare the term and the index of the last entry. A compaction takes the entries away:
`lastIndex` then answers from the base index, but `lastTerm` answers zero, and the term that the
snapshot file holds is never read. So a compaction keeps the tail exactly when the term was zero
anyway and the index after the last one exists.
-/

open LineFile FileSystem

namespace NomadRs.RaftLogStore

section Tail
variable [SerdeJson] {s s' : RaftLogStore} {inner : Inner} {index term : UInt64}

def Inner.HasTail (inner : Inner) (index term : UInt64) : Prop :=
  inner.lastIndex = index ∧ inner.lastTerm = term

/-- The store reports this tail, and so does the one that reopening yields. -/
def ReportsTail (s : RaftLogStore) (index term : UInt64) : Prop :=
  s.inner.HasTail index term ∧ ∃ disk, openAt s.files = .ok disk ∧ disk.HasTail index term

omit [SerdeJson] in
theorem Inner.hasTail_nil_iff : HasTail ⟨[], index + 1⟩ index term ↔ term = 0 ∧ BelowMax index := by
  by_cases hmax : BelowMax index
  · have hreset := Indexed.reset hmax
    have hlast := toNat_lastIndex hreset.base_pos hreset.bound
    rw [toNat_succ hmax, List.length_nil, Nat.add_zero, Nat.add_right_cancel_iff,
      UInt64.toNat_inj] at hlast
    rw [HasTail, hlast]
    exact ⟨fun h => ⟨h.2.symm, hmax⟩, fun h => ⟨rfl, h.1.symm⟩⟩
  · -- the base index has wrapped around to zero
    have hlt := index.toNat_lt
    refine iff_of_false (fun h => ?_) fun h => hmax h.2
    unfold BelowMax at hmax
    have hzero : (index + 1).toNat = 0 := by
      rw [UInt64.toNat_add, UInt64.toNat_one]
      omega
    have hlast : lastIndex ⟨[], index + 1⟩ = 0 := by
      rw [lastIndex, List.isEmpty_nil, if_pos rfl, saturatingSub, if_neg]
      rw [UInt64.le_iff_toNat_le, UInt64.toNat_one, hzero]
      omega
    have hindex := congrArg UInt64.toNat (hlast.symm.trans h.1)
    rw [UInt64.toNat_zero] at hindex
    omega

theorem Synced.reportsTail_iff (h : s.Synced) :
    s.ReportsTail index term ↔ s.inner.HasTail index term := by
  refine ⟨fun hr => hr.1, fun ht => ⟨ht, s.inner, h.openAt, ht⟩⟩

omit [SerdeJson] in
theorem Inner.toNat_lastIndex_of_ne_nil (hne : inner.entries ≠ []) : inner.lastIndex.toNat =
    (inner.baseIndex.toNat + inner.entries.length - 1) % 2 ^ 64 := by
  have hpos := List.length_pos_of_ne_nil hne
  have hbase := inner.baseIndex.toNat_lt
  rw [lastIndex, if_neg (by simpa using hne), nextIndex, UInt64.toNat_sub, UInt64.toNat_add,
    UInt64.toNat_ofNat', UInt64.toNat_one]
  omega

omit [SerdeJson] in
/-- Where the indices run over, a new snapshot gets an index that is not the last one's. -/
theorem Inner.lastIndex_ne_of_overflow (hne : inner.entries ≠ [])
    (hlen : inner.entries.length < 2 ^ 64)
    (hover : 2 ^ 64 ≤ inner.baseIndex.toNat + inner.entries.length) :
    lastIndex ⟨inner.entries.drop (inner.truncateCount inner.lastIndex), inner.lastIndex + 1⟩ ≠
      inner.lastIndex := by
  have hpos := List.length_pos_of_ne_nil hne
  have hbase := inner.baseIndex.toNat_lt
  have hlast := toNat_lastIndex_of_ne_nil hne
  rcases hover.eq_or_lt with heq | hlt
  · -- the last index is the largest one, and the base index wraps around to zero
    have hle : inner.baseIndex ≤ inner.lastIndex := by
      rw [UInt64.le_iff_toNat_le]
      omega
    have hcount : inner.truncateCount inner.lastIndex = inner.entries.length := by
      rw [truncateCount, if_pos hle, UInt64.toNat_add, UInt64.toNat_sub_of_le _ _ hle,
        UInt64.toNat_one]
      omega
    rw [hcount, List.drop_length]
    intro h
    have htail : HasTail ⟨[], inner.lastIndex + 1⟩ inner.lastIndex 0 := ⟨h, rfl⟩
    have hmax := (hasTail_nil_iff.1 htail).2
    unfold BelowMax at hmax
    omega
  · -- the last index is below the base index, and nothing is taken off the log
    have hnot : ¬ inner.baseIndex ≤ inner.lastIndex := by
      rw [UInt64.le_iff_toNat_le]
      omega
    rw [truncateCount, if_neg hnot, Nat.zero_min, List.drop_zero]
    intro h
    have hnat := congrArg UInt64.toNat h
    rw [lastIndex, if_neg (by simpa using hne), nextIndex, UInt64.toNat_sub, UInt64.toNat_add,
      UInt64.toNat_add, UInt64.toNat_ofNat', UInt64.toNat_one] at hnat
    dsimp only at hnat
    omega

/-- What compaction makes of the tail. A log of more than `2^64` entries has no place in memory.
A new snapshot of a log that is not empty, with the term of the last entry, keeps the tail
exactly if this term is zero and the index after the last one exists; and the tail is the one an
installed snapshot names exactly if its term is zero and its index is below the largest one. -/
theorem tail_kept_iff (hne : s.inner.entries ≠ []) (hlen : s.inner.entries.length < 2 ^ 64) :
    (∀ state steps snapshot s',
      s.run (createSnapshot state s.inner.lastTerm) steps = (.ok snapshot, s') →
        (s'.ReportsTail s.inner.lastIndex s.inner.lastTerm ↔ s.inner.lastTerm = 0 ∧
          s.inner.baseIndex.toNat + s.inner.entries.length < 2 ^ 64)) ∧
    ∀ snapshot steps s', s.run (installSnapshot snapshot) steps = (.ok (), s') →
      (s'.ReportsTail snapshot.lastIncludedIndex snapshot.lastIncludedTerm ↔
        snapshot.lastIncludedTerm = 0 ∧ BelowMax snapshot.lastIncludedIndex) := by
  constructor
  · intro state steps snapshot s' hrun
    obtain ⟨hsynced, hinner⟩ := Synced.createSnapshot hrun
    rw [hsynced.reportsTail_iff, hinner, keptBy]
    by_cases hover : s.inner.baseIndex.toNat + s.inner.entries.length < 2 ^ 64
    · have hmax : BelowMax s.inner.lastIndex := by
        have hpos := List.length_pos_of_ne_nil hne
        rw [BelowMax, Inner.toNat_lastIndex_of_ne_nil hne]
        omega
      rw [Inner.drop_truncateCount hover, Inner.hasTail_nil_iff]
      exact and_congr_right fun _ => iff_of_true hmax hover
    · exact iff_of_false (fun h => Inner.lastIndex_ne_of_overflow hne hlen (by omega) h.1)
        fun h => hover h.2
  · intro snapshot steps s' hrun
    obtain ⟨hsynced, hinner⟩ := Synced.compact (.installSnapshot snapshot) rfl
      (congrArg Prod.fst hrun)
    rw [show s.call (.installSnapshot snapshot) steps = _ from hrun] at hsynced hinner
    rw [hsynced.reportsTail_iff, hinner]
    exact Inner.hasTail_nil_iff

end Tail

/-! ## A compacted log of two entries -/

section Sample
attribute [local instance] SerdeJson.sample

/-- A snapshot of two entries of term 1 forgets the tail, an installed one of term 0 is the tail. -/
theorem tail_kept_iff_web : ∃ s created installed : RaftLogStore, ∃ steps snapshot,
    s.inner = ⟨[webEntry 1, webEntry 2], 1⟩ ∧
    s.run (createSnapshot .new s.inner.lastTerm) steps = (.ok snapshot, created) ∧
    ¬ created.ReportsTail s.inner.lastIndex s.inner.lastTerm ∧
    installed.ReportsTail 5 0 := by
  obtain ⟨s, _, hinner⟩ := exists_webLog
  obtain ⟨steps, created, hcreate⟩ := s.exists_createSnapshot .new s.inner.lastTerm
  let snapshot : RaftSnapshot := { state := .new, lastIncludedIndex := 5, lastIncludedTerm := 0 }
  obtain ⟨steps', installed, hinstall⟩ := s.exists_compact snapshot []
  obtain ⟨hcreated, hinstalled⟩ := tail_kept_iff (s := s) (by rw [hinner]; simp)
    (by rw [hinner]; simp)
  refine ⟨s, created, installed, steps, _, hinner, hcreate, fun htail => ?_, ?_⟩
  · have hterm := ((hcreated _ _ _ _ hcreate).1 htail).1
    rw [hinner] at hterm
    exact absurd hterm (by decide)
  · exact (hinstalled snapshot _ _ hinstall).2 ⟨rfl, by unfold BelowMax; decide⟩

/-- The term of the last entry is forgotten. -/
theorem tail_forgotten : ¬ ∀ s : RaftLogStore, raftLogSystem.Reachable s →
    s.inner = ⟨[webEntry 1, webEntry 2], 1⟩ → ∀ steps snapshot s',
      s.run (createSnapshot .new s.inner.lastTerm) steps = (.ok snapshot, s') →
        s'.ReportsTail s.inner.lastIndex s.inner.lastTerm := by
  intro h
  obtain ⟨s, hs, hinner⟩ := exists_webLog
  obtain ⟨steps, s', hrun⟩ := s.exists_createSnapshot .new s.inner.lastTerm
  have htail := (h s (hs.mono fun _ _ _ => trivial) hinner steps _ s' hrun).1
  rw [(Synced.createSnapshot hrun).2, keptBy, Inner.drop_truncateCount (by rw [hinner]; simp),
    Inner.hasTail_nil_iff, hinner] at htail
  exact absurd htail.1 (by decide)

end Sample
end NomadRs.RaftLogStore
