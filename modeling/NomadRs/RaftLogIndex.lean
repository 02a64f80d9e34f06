import NomadRs.RaftLog

/-!
# Positions and indices of a log

`Inner.Indexed` says that the entries carry consecutive indices from `baseIndex` on and that the
last of them is below the largest one. Under it the reads of a log are what their names promise,
and each write that stays below the largest index keeps it.
-/

open LineFile FileSystem

namespace NomadRs.RaftLogStore

/-- Below `2^64 - 1`, so that the index after it exists. -/
def BelowMax (index : UInt64) : Prop := index.toNat < 2 ^ 64 - 1

theorem toNat_succ {index : UInt64} (h : BelowMax index) :
    (index + 1).toNat = index.toNat + 1 := by
  unfold BelowMax at h
  rw [UInt64.toNat_add, UInt64.toNat_one, Nat.mod_eq_of_lt (by omega)]

namespace Inner

structure Indexed (inner : Inner) : Prop where
  base_pos : 0 < inner.baseIndex.toNat
  bound : inner.baseIndex.toNat + inner.entries.length < 2 ^ 64
  indices : inner.entries.map (fun entry => entry.index.toNat) =
    List.range' inner.baseIndex.toNat inner.entries.length

variable {inner : Inner} {index : UInt64}

theorem toNat_nextIndex (h : inner.baseIndex.toNat + inner.entries.length < 2 ^ 64) :
    inner.nextIndex.toNat = inner.baseIndex.toNat + inner.entries.length := by
  rw [nextIndex, UInt64.toNat_add, UInt64.toNat_ofNat', Nat.mod_eq_of_lt (a := List.length _),
    Nat.mod_eq_of_lt h]
  omega

/-! ## Reading -/

theorem toNat_lastIndex (hbase : 0 < inner.baseIndex.toNat)
    (h : inner.baseIndex.toNat + inner.entries.length < 2 ^ 64) :
    inner.lastIndex.toNat + 1 = inner.baseIndex.toNat + inner.entries.length := by
  unfold lastIndex saturatingSub
  have hone : ∀ {a : UInt64}, 0 < a.toNat → (1 : UInt64) ≤ a := fun {a} ha => by
    rw [UInt64.le_iff_toNat_le, UInt64.toNat_one]
    omega
  split
  · rename_i hempty
    rw [if_pos (hone hbase), UInt64.toNat_sub_of_le _ _ (hone hbase), UInt64.toNat_one,
      List.isEmpty_iff.1 hempty, List.length_nil]
    omega
  · have hnext := toNat_nextIndex h
    rw [UInt64.toNat_sub_of_le _ _ (hone (by omega)), hnext, UInt64.toNat_one]
    omega

theorem get_eq (index : UInt64) : inner.get index =
    if index.toNat < inner.baseIndex.toNat then none
    else inner.entries[index.toNat - inner.baseIndex.toNat]? := by
  unfold get
  simp only [UInt64.lt_iff_toNat_lt]
  split
  · rfl
  · rw [UInt64.toNat_sub_of_le _ _ (by rw [UInt64.le_iff_toNat_le]; omega)]

theorem entriesFrom_eq_drop (index : UInt64) : inner.entriesFrom index =
    inner.entries.drop (index.toNat - inner.baseIndex.toNat) := by
  unfold entriesFrom
  simp only [UInt64.lt_iff_toNat_lt]
  split
  · rw [Nat.sub_eq_zero_of_le (by omega), List.drop_zero]
  · rw [UInt64.toNat_sub_of_le _ _ (by rw [UInt64.le_iff_toNat_le]; omega)]

namespace Indexed

theorem index_of_getElem? (h : inner.Indexed) {pos : ℕ} {entry : RaftLogEntry}
    (he : inner.entries[pos]? = some entry) :
    entry.index.toNat = inner.baseIndex.toNat + pos := by
  have hmap := congrArg (·[pos]?) h.indices
  obtain ⟨hpos, _⟩ := List.getElem?_eq_some_iff.1 he
  simp only [List.getElem?_map, he, Option.map_some, List.getElem?_range' hpos,
    Option.some.injEq] at hmap
  omega

theorem index_of_get (h : inner.Indexed) {entry : RaftLogEntry}
    (he : inner.get index = some entry) : entry.index = index := by
  rw [get_eq] at he
  split at he
  · cases he
  · have hindex := h.index_of_getElem? he
    rw [← UInt64.toNat_inj]
    omega

theorem get_of_mem (h : inner.Indexed) {entry : RaftLogEntry} (he : entry ∈ inner.entries) :
    inner.get entry.index = some entry := by
  obtain ⟨pos, hpos⟩ := List.mem_iff_getElem?.1 he
  have hindex := h.index_of_getElem? hpos
  rw [get_eq, if_neg (by omega), hindex, Nat.add_sub_cancel_left, hpos]

theorem index_lt_of_mem (h : inner.Indexed) {entry : RaftLogEntry} (he : entry ∈ inner.entries) :
    entry.index.toNat < inner.baseIndex.toNat + inner.entries.length := by
  obtain ⟨pos, hpos⟩ := List.mem_iff_getElem?.1 he
  obtain ⟨hlt, _⟩ := List.getElem?_eq_some_iff.1 hpos
  rw [h.index_of_getElem? hpos]
  omega

theorem get_isSome_iff (h : inner.Indexed) :
    (inner.get index).isSome ↔ inner.baseIndex ≤ index ∧ index ≤ inner.lastIndex := by
  have hlast := toNat_lastIndex h.base_pos h.bound
  rw [get_eq, UInt64.le_iff_toNat_le, UInt64.le_iff_toNat_le]
  split
  · simp only [Option.isSome_none, Bool.false_eq_true, false_iff]
    omega
  · rw [isSome_getElem?]
    omega

theorem entriesFrom_indices (h : inner.Indexed) (index : UInt64) :
    (inner.entriesFrom index).map (fun entry => entry.index.toNat) =
      List.range' (max inner.baseIndex.toNat index.toNat)
        (inner.baseIndex.toNat + inner.entries.length - max inner.baseIndex.toNat index.toNat) := by
  rw [entriesFrom_eq_drop, List.map_drop, h.indices, List.drop_range']
  congr 1 <;> omega

theorem index_lt_of_mem_take (h : inner.Indexed) {entry : RaftLogEntry} {n : ℕ}
    (he : entry ∈ inner.entries.take n) : entry.index.toNat < inner.baseIndex.toNat + n := by
  obtain ⟨pos, hpos⟩ := List.mem_iff_getElem?.1 he
  rw [List.getElem?_take] at hpos
  split at hpos
  · rw [h.index_of_getElem? hpos]
    omega
  · cases hpos

theorem le_index_of_mem_drop (h : inner.Indexed) {entry : RaftLogEntry} {n : ℕ}
    (he : entry ∈ inner.entries.drop n) : inner.baseIndex.toNat + n ≤ entry.index.toNat := by
  obtain ⟨pos, hpos⟩ := List.mem_iff_getElem?.1 he
  rw [List.getElem?_drop] at hpos
  rw [h.index_of_getElem? hpos]
  omega

/-- The suffix from an index on is all there is from this index on. -/
theorem entriesFrom_eq_filter (h : inner.Indexed) (index : UInt64) :
    inner.entriesFrom index = inner.entries.filter fun entry => index ≤ entry.index := by
  rw [entriesFrom_eq_drop]
  conv_rhs => rw [← List.take_append_drop (index.toNat - inner.baseIndex.toNat) inner.entries,
    List.filter_append]
  rw [List.filter_eq_nil_iff.2, List.filter_eq_self.2, List.nil_append]
  · intro entry he
    have hle := h.le_index_of_mem_drop he
    rw [decide_eq_true_eq, UInt64.le_iff_toNat_le]
    omega
  · intro entry he
    have hlt := h.index_lt_of_mem_take he
    have hpos := List.length_pos_of_mem he
    rw [List.length_take] at hpos
    rw [decide_eq_true_eq, UInt64.le_iff_toNat_le]
    omega

/-- A truncation keeps all there is below its index. -/
theorem take_truncatePos_eq_filter (h : inner.Indexed) (fromIndex : UInt64) :
    inner.entries.take (inner.truncatePos fromIndex) =
      inner.entries.filter fun entry => entry.index < fromIndex := by
  have hpos : inner.truncatePos fromIndex = fromIndex.toNat - inner.baseIndex.toNat := by
    unfold truncatePos
    split
    · rw [UInt64.toNat_sub_of_le _ _ ‹_›]
    · rename_i hlt
      rw [UInt64.le_iff_toNat_le] at hlt
      omega
  rw [hpos]
  conv_rhs => rw [← List.take_append_drop (fromIndex.toNat - inner.baseIndex.toNat) inner.entries,
    List.filter_append]
  rw [List.filter_eq_self.2, List.filter_eq_nil_iff.2, List.append_nil]
  · intro entry he
    have hle := h.le_index_of_mem_drop he
    rw [decide_eq_true_eq, UInt64.lt_iff_toNat_lt]
    omega
  · intro entry he
    have hlt := h.index_lt_of_mem_take he
    have hpos := List.length_pos_of_mem he
    rw [List.length_take] at hpos
    rw [decide_eq_true_eq, UInt64.lt_iff_toNat_lt]
    omega

/-! ## Writing -/

theorem new : Indexed ⟨[], 1⟩ := ⟨by simp, by simp, rfl⟩

theorem push (h : inner.Indexed) (hnext : BelowMax inner.nextIndex) (term : UInt64)
    (command : Command) (now : DateTime) :
    (inner.push (inner.newEntry term command now)).Indexed := by
  have htoNat := toNat_nextIndex h.bound
  unfold BelowMax at hnext
  refine ⟨h.base_pos, ?_, ?_⟩
  · simp only [Inner.push, List.length_append, List.length_singleton]
    omega
  · simp only [Inner.push, List.map_append, h.indices, List.map_cons, List.map_nil, newEntry,
      List.length_append, List.length_singleton, htoNat]
    rw [List.range'_concat, Nat.one_mul]

theorem take (h : inner.Indexed) (n : ℕ) :
    Indexed { inner with entries := inner.entries.take n } := by
  refine ⟨h.base_pos, ?_, ?_⟩
  · have := h.bound
    simp only [List.length_take]
    omega
  · simp only [List.map_take, h.indices, List.length_take]
    rcases Nat.le_total n inner.entries.length with hle | hle
    · rw [List.take_range'_of_length_ge hle, Nat.min_eq_left hle]
    · rw [List.take_range'_of_length_le hle, Nat.min_eq_right hle]

theorem reset (hindex : BelowMax index) : Indexed ⟨[], index + 1⟩ := by
  have hsucc := toNat_succ hindex
  unfold BelowMax at hindex
  exact ⟨by simp only; omega, by simp only [List.length_nil]; omega, rfl⟩

theorem lastIndex_belowMax (h : inner.Indexed) : BelowMax inner.lastIndex := by
  have hlast := toNat_lastIndex h.base_pos h.bound
  have hbound := h.bound
  unfold BelowMax
  omega

end Indexed

theorem drop_truncateCount (h : inner.baseIndex.toNat + inner.entries.length < 2 ^ 64) :
    inner.entries.drop (inner.truncateCount inner.lastIndex) = [] := by
  cases hentries : inner.entries with
  | nil => simp
  | cons entry entries =>
      have hlen : inner.entries.length = entries.length + 1 := by rw [hentries, List.length_cons]
      have hnext := toNat_nextIndex h
      have hone : (1 : UInt64) ≤ inner.nextIndex := by
        rw [UInt64.le_iff_toNat_le, UInt64.toNat_one]
        omega
      have hlast : inner.lastIndex.toNat = inner.baseIndex.toNat + entries.length := by
        rw [lastIndex, hentries, List.isEmpty_cons, if_neg (by simp),
          UInt64.toNat_sub_of_le _ _ hone, hnext, UInt64.toNat_one]
        omega
      have hle : inner.baseIndex ≤ inner.lastIndex := by
        rw [UInt64.le_iff_toNat_le]
        omega
      have hcount : inner.truncateCount inner.lastIndex = entries.length + 1 := by
        rw [truncateCount, if_pos hle, UInt64.toNat_add, UInt64.toNat_sub_of_le _ _ hle, hlast,
          UInt64.toNat_one, Nat.mod_eq_of_lt (by omega), hlen]
        omega
      rw [hcount]
      simp

end Inner
end NomadRs.RaftLogStore
