import Mathlib.Algebra.BigOperators.Group.List.Basic
import Mathlib.Algebra.Order.BigOperators.Group.List
import Mathlib.Data.List.AList
import Mathlib.Tactic

/-!
# Hash maps with an iteration order

A `HashMap κ α` holds at most one value for each key and lists its entries in some order, the
one an iteration over it sees. `AList.insert` and `AList.erase` pick one order; `Relayout`
relates two maps with the same entries in any order, so a run that may relayout its maps between
two steps sees every iteration order a hash table can show.

`sumBy f` adds `f` over the values. Its rules for insertion and erasure are what accounting
arguments about a keyed store use.
-/

/-- At most one value for each key, listed in an iteration order. -/
abbrev HashMap (κ α : Type*) := AList fun _ : κ => α

namespace HashMap

variable {κ α M : Type*}

def values (m : HashMap κ α) : List α := m.entries.map Sigma.snd

/-- The same entries, listed in another order. -/
def Relayout (m m' : HashMap κ α) : Prop := m.entries.Perm m'.entries

theorem Relayout.values_perm {m m' : HashMap κ α} (h : Relayout m m') :
    m.values.Perm m'.values := h.map _

theorem Relayout.keys_perm {m m' : HashMap κ α} (h : Relayout m m') :
    m.keys.Perm m'.keys := h.map _

def filter (p : α → Bool) (m : HashMap κ α) : HashMap κ α :=
  ⟨m.entries.filter fun e => p e.2, m.nodupKeys.sublist List.filter_sublist⟩

theorem values_filter (p : α → Bool) (m : HashMap κ α) :
    values (filter p m) = m.values.filter p := by
  rw [values, values, List.filter_map]
  rfl

@[simp] theorem values_empty : values (∅ : HashMap κ α) = [] := rfl

variable [DecidableEq κ]

theorem Relayout.lookup_eq {m m' : HashMap κ α} (h : Relayout m m') (k : κ) :
    m.lookup k = m'.lookup k := AList.perm_lookup h

theorem relayout_of_lookup {m m' : HashMap κ α} (h : ∀ k, m.lookup k = m'.lookup k) :
    Relayout m m' :=
  List.lookup_ext m.nodupKeys m'.nodupKeys fun k a => by
    rw [show m.entries.dlookup k = m'.entries.dlookup k from h k]

theorem mem_values_iff {m : HashMap κ α} {a : α} : a ∈ m.values ↔ ∃ k, m.lookup k = some a := by
  simp only [values, List.mem_map, Sigma.exists]
  constructor
  · rintro ⟨k, b, hb, rfl⟩
    exact ⟨k, AList.mem_lookup_iff.2 hb⟩
  · rintro ⟨k, hk⟩
    exact ⟨k, a, AList.mem_lookup_iff.1 hk, rfl⟩

theorem mem_values_of_lookup {m : HashMap κ α} {k : κ} {a : α} (h : m.lookup k = some a) :
    a ∈ m.values := mem_values_iff.2 ⟨k, h⟩

@[simp] theorem values_insert (m : HashMap κ α) (k : κ) (a : α) :
    values (m.insert k a) = a :: values (m.erase k) := by
  rw [values, AList.entries_insert, List.map_cons]
  rfl

theorem erase_eq_self {m : HashMap κ α} {k : κ} (h : m.lookup k = none) : m.erase k = m :=
  AList.ext (List.kerase_of_notMem_keys (AList.lookup_eq_none.1 h))

@[simp] theorem erase_insert (m : HashMap κ α) (k : κ) (a : α) :
    AList.erase k (m.insert k a) = m.erase k :=
  AList.ext (List.kerase_cons_eq rfl)

theorem lookup_filter_eq_some {p : α → Bool} {m : HashMap κ α} {k : κ} {a : α} :
    (filter p m).lookup k = some a ↔ m.lookup k = some a ∧ p a = true := by
  rw [← Option.mem_def, ← Option.mem_def, AList.mem_lookup_iff, AList.mem_lookup_iff]
  exact List.mem_filter

theorem lookup_erase_eq_some {m : HashMap κ α} {k k' : κ} {a : α} :
    (m.erase k).lookup k' = some a ↔ k' ≠ k ∧ m.lookup k' = some a := by
  by_cases hk : k' = k
  · subst hk
    simp
  · simp [AList.lookup_erase_ne hk, hk]

theorem lookup_insert_eq_some {m : HashMap κ α} {k k' : κ} {a b : α} :
    (m.insert k a).lookup k' = some b ↔ (k' = k ∧ a = b) ∨ (k' ≠ k ∧ m.lookup k' = some b) := by
  by_cases hk : k' = k
  · subst hk
    simp
  · simp [AList.lookup_insert_ne hk, hk]

theorem mem_values_erase {m : HashMap κ α} {k : κ} {a : α} (h : a ∈ values (m.erase k)) :
    a ∈ m.values := by
  obtain ⟨k', hk'⟩ := mem_values_iff.1 h
  exact mem_values_of_lookup (lookup_erase_eq_some.1 hk').2

theorem mem_values_insert {m : HashMap κ α} {k : κ} {a b : α} (h : b ∈ values (m.insert k a)) :
    b = a ∨ b ∈ m.values := by
  rw [values_insert, List.mem_cons] at h
  exact h.imp_right mem_values_erase

theorem entries_perm_erase {m : HashMap κ α} {k : κ} {a : α} (h : m.lookup k = some a) :
    m.entries.Perm (⟨k, a⟩ :: (m.erase k).entries) := by
  have hmem : Sigma.mk k a ∈ m.entries := AList.mem_lookup_iff.1 h
  obtain ⟨b, l₁, l₂, hk, hl, hm⟩ := List.exists_of_kerase
    (List.mem_map_of_mem hmem : k ∈ m.entries.keys)
  have hb : b = a := by
    have hb' : m.lookup k = some b := AList.mem_lookup_iff.2 (by rw [hl]; simp)
    exact Option.some.inj (hb'.symm.trans h)
  subst hb
  change m.entries.Perm (⟨k, b⟩ :: m.entries.kerase k)
  rw [hm]
  nth_rewrite 1 [hl]
  exact List.perm_middle

theorem values_perm_erase {m : HashMap κ α} {k : κ} {a : α} (h : m.lookup k = some a) :
    m.values.Perm (a :: values (m.erase k)) := (entries_perm_erase h).map _

theorem keys_perm_erase {m : HashMap κ α} {k : κ} {a : α} (h : m.lookup k = some a) :
    m.keys.Perm (k :: AList.keys (m.erase k)) := (entries_perm_erase h).map _

/-! ## Sums over the values -/

def sumBy [AddCommMonoid M] (f : α → M) (m : HashMap κ α) : M := (m.values.map f).sum

section Sums
variable [AddCommMonoid M] (f : α → M)

omit [DecidableEq κ] in
@[simp] theorem sumBy_empty : sumBy f (∅ : HashMap κ α) = 0 := rfl

omit [DecidableEq κ] in
theorem Relayout.sumBy_eq {m m' : HashMap κ α} (h : Relayout m m') : sumBy f m = sumBy f m' :=
  (h.values_perm.map f).sum_eq

theorem sumBy_insert (m : HashMap κ α) (k : κ) (a : α) :
    sumBy f (m.insert k a) = f a + sumBy f (m.erase k) := by simp [sumBy]

theorem sumBy_eq_add_erase {m : HashMap κ α} {k : κ} {a : α} (h : m.lookup k = some a) :
    sumBy f m = f a + sumBy f (m.erase k) := by
  rw [sumBy, ((values_perm_erase h).map f).sum_eq, List.map_cons, List.sum_cons]
  rfl

variable [PartialOrder M] [IsOrderedAddMonoid M]

theorem sumBy_erase_le {m : HashMap κ α} (hf : ∀ a ∈ m.values, 0 ≤ f a) (k : κ) :
    sumBy f (m.erase k) ≤ sumBy f m := by
  cases hk : m.lookup k with
  | none => rw [erase_eq_self hk]
  | some a =>
      rw [sumBy_eq_add_erase f hk]
      exact le_add_of_nonneg_left (hf a (mem_values_of_lookup hk))

/-- Writing an entry adds at most its own share: an overwritten entry gives its share back. -/
theorem sumBy_insert_le {m : HashMap κ α} (hf : ∀ a ∈ m.values, 0 ≤ f a) (k : κ) (a : α) :
    sumBy f (m.insert k a) ≤ f a + sumBy f m := by
  rw [sumBy_insert]
  gcongr
  exact sumBy_erase_le f hf k

end Sums
end HashMap
