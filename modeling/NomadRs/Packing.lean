import Mathlib.Algebra.BigOperators.Group.List.Basic
import Mathlib.Data.ENat.Lattice
import Mathlib.Order.CompletePartialOrder
import NomadRs.Transition

/-!
# How often a demand fits

Bins have capacities, and a placement subtracts a demand from the capacity of one bin that covers
it. `rounds need avail` counts how often a demand can be placed on a bin in succession, `total`
adds this up over the bins. Every placement takes one off the total, whichever bin it chooses
(`Take.total_eq`), so all ways to place until nothing fits place equally often: `steps_eq_min`.
-/

namespace Packing

variable {M : Type*} [Sub M] [LE M] {need avail : M} {bins bins' : List M}

def FitsTimes (need : M) : ℕ → M → Prop
  | 0, _ => True
  | n + 1, avail => need ≤ avail ∧ FitsTimes need n (avail - need)

/-- How often the demand fits in succession; infinitely often if it never uses anything up. -/
noncomputable def rounds (need avail : M) : ℕ∞ := ⨆ n : { n // FitsTimes need n avail }, (n : ℕ∞)

theorem rounds_of_not_le (h : ¬ need ≤ avail) : rounds need avail = 0 := by
  rw [rounds, ENat.iSup_eq_zero]
  rintro ⟨n, hn⟩
  cases n with
  | zero => rfl
  | succ n => exact absurd hn.1 h

theorem rounds_of_le (h : need ≤ avail) :
    rounds need avail = rounds need (avail - need) + 1 := by
  have hzero : Nonempty { n // FitsTimes need n (avail - need) } := ⟨0, trivial⟩
  rw [rounds, rounds, ENat.iSup_add]
  apply le_antisymm
  · apply iSup_le
    rintro ⟨n, hn⟩
    cases n with
    | zero => exact zero_le
    | succ n => exact le_iSup_of_le ⟨n, hn.2⟩ (by push_cast; rfl)
  · apply iSup_le
    rintro ⟨n, hn⟩
    exact le_iSup_of_le ⟨n + 1, h, hn⟩ (by push_cast; rfl)

/-! ## Bins -/

noncomputable def total (need : M) (bins : List M) : ℕ∞ := (bins.map (rounds need)).sum

/-- One placement, on any bin that covers the demand. -/
inductive Take (need : M) : List M → List M → Prop
  | pay (l₁ : List M) (avail : M) (l₂ : List M) : need ≤ avail →
      Take need (l₁ ++ avail :: l₂) (l₁ ++ (avail - need) :: l₂)

theorem Take.total_eq (h : Take need bins bins') : total need bins = total need bins' + 1 := by
  obtain ⟨l₁, avail, l₂, hle⟩ := h
  simp only [total, List.map_append, List.map_cons, List.sum_append, List.sum_cons,
    rounds_of_le hle]
  ring

theorem total_eq_zero (h : ∀ avail ∈ bins, ¬ need ≤ avail) : total need bins = 0 := by
  apply List.sum_eq_zero
  intro k hk
  obtain ⟨avail, ha, rfl⟩ := List.mem_map.1 hk
  exact rounds_of_not_le (h avail ha)

theorem total_perm (h : bins.Perm bins') : total need bins = total need bins' :=
  (h.map _).sum_eq

theorem steps_total_eq {k : ℕ} (h : Steps (Take need) k bins bins') :
    total need bins = total need bins' + k := by
  induction h with
  | refl => simp
  | head htake _ ih => rw [htake.total_eq, ih, Nat.cast_succ, add_assoc]

/-- Placing until `n` placements are made or nothing fits any more makes as many placements as
`n` and the total allow. -/
theorem steps_eq_min {k n : ℕ} (h : Steps (Take need) k bins bins') (hk : k ≤ n)
    (hend : k = n ∨ ∀ avail ∈ bins', ¬ need ≤ avail) :
    (k : ℕ∞) = min (n : ℕ∞) (total need bins) := by
  rw [steps_total_eq h]
  rcases hend with rfl | hfull
  · exact (min_eq_left le_add_self).symm
  · rw [total_eq_zero hfull, zero_add]
    exact (min_eq_right (by exact_mod_cast hk)).symm

end Packing
