import Mathlib.Algebra.BigOperators.Group.List.Basic
import Mathlib.Algebra.Order.BigOperators.Group.List
import Mathlib.Tactic

/-!
# Checked computations

Arithmetic on numbers that have to fit somewhere: each operation is checked, and a computation in
which one does not fit has no result. A sum has a result exactly if all its partial sums fit
(`sumFrom_eq_some_iff`). Of a sum of nonnegative terms only the total matters
(`partialSums_fit_iff`), and so it does where the operations wrap around (`foldl_wrap`). A loop of
checked steps is the unchecked loop if every step has a result (`foldlM_eq_some_iff`,
`mapM_eq_some_iff`), and so is a map that agrees with the checked one where there is one
(`map_of_mapM`). Two loops are equal whose steps are equal as long as an invariant holds
(`foldl_congr_of_inv`).
-/

namespace Checked

/-! ## Sums -/

variable {M : Type*}

def check (fits : M → Prop) [DecidablePred fits] (x : M) : Option M :=
  if fits x then some x else none

theorem check_of_fits {fits : M → Prop} [DecidablePred fits] {x : M} (h : fits x) :
    check fits x = some x := if_pos h

section Sums
variable [AddMonoid M] (fits : M → Prop) [DecidablePred fits] {acc r : M} {xs : List M}

def sumFrom (acc : M) (xs : List M) : Option M :=
  xs.foldlM (fun acc x => check fits (acc + x)) acc

theorem forall_prefix_cons {α : Type*} {P : List α → Prop} {x : α} {l : List α} :
    (∀ p, p <+: x :: l → P p) ↔ P [] ∧ ∀ p, p <+: l → P (x :: p) := by
  constructor
  · exact fun h => ⟨h _ List.nil_prefix, fun p hp => h _ (List.cons_prefix_cons.2 ⟨rfl, hp⟩)⟩
  · rintro ⟨hnil, hcons⟩ p hp
    cases p with
    | nil => exact hnil
    | cons y p =>
        obtain ⟨rfl, hrest⟩ := List.cons_prefix_cons.1 hp
        exact hcons p hrest

theorem sumFrom_eq_some_iff (hacc : fits acc) : sumFrom fits acc xs = some r ↔
    (∀ p, p <+: xs → fits (acc + p.sum)) ∧ r = acc + xs.sum := by
  induction xs generalizing acc with
  | nil => simp [sumFrom, hacc, eq_comm]
  | cons x xs ih =>
      rw [sumFrom, List.foldlM_cons, check, forall_prefix_cons]
      by_cases hx : fits (acc + x)
      · have hrest := ih hx
        rw [sumFrom] at hrest
        simp only [if_pos hx, Option.bind_eq_bind, Option.bind_some, hrest, List.sum_nil, add_zero,
          hacc, true_and, List.sum_cons, add_assoc]
      · simp only [if_neg hx, Option.bind_eq_bind, Option.bind_none, reduceCtorEq, false_iff]
        rintro ⟨⟨_, hpre⟩, _⟩
        exact hx (by simpa using hpre [] List.nil_prefix)

theorem sumFrom_isSome_iff (hacc : fits acc) :
    (sumFrom fits acc xs).isSome ↔ ∀ p, p <+: xs → fits (acc + p.sum) := by
  rw [Option.isSome_iff_exists]
  simp only [sumFrom_eq_some_iff fits hacc, exists_and_left, exists_eq, and_true]

end Sums

/-- Where every sum is brought back into range, the range of the total is all that matters. -/
theorem foldl_wrap [AddMonoid M] {wrap : M → M} (hwrap : ∀ a x, wrap (wrap a + x) = wrap (a + x))
    (acc : M) (xs : List M) :
    xs.foldl (fun acc x => wrap (acc + x)) (wrap acc) = wrap (acc + xs.sum) := by
  induction xs generalizing acc with
  | nil => simp
  | cons x xs ih => rw [List.foldl_cons, hwrap, ih, List.sum_cons, add_assoc]

section Ordered
variable [AddCommMonoid M] [PartialOrder M] [IsOrderedAddMonoid M] {lo hi acc : M} {xs : List M}

/-- Sums of nonnegative terms only grow, so that they fit if the total does. -/
theorem partialSums_fit_iff (hacc : lo ≤ acc) (hxs : ∀ x ∈ xs, 0 ≤ x) :
    (∀ p, p <+: xs → lo ≤ acc + p.sum ∧ acc + p.sum ≤ hi) ↔ acc + xs.sum ≤ hi := by
  constructor
  · exact fun h => (h xs List.prefix_rfl).2
  · rintro htotal p ⟨rest, rfl⟩
    obtain ⟨hp, hrest⟩ := List.forall_mem_append.1 hxs
    refine ⟨le_add_of_le_of_nonneg hacc (List.sum_nonneg hp), le_trans ?_ htotal⟩
    rw [List.sum_append, ← add_assoc]
    exact le_add_of_nonneg_right (List.sum_nonneg hrest)

end Ordered

/-! ## Loops -/

section Loops
variable {α β σ : Type*} {xs : List α}

theorem foldlM_eq_some_iff {f : σ → α → Option σ} {g : σ → α → σ} {P : α → Prop}
    (Inv : σ → Prop) (hstep : ∀ x ∈ xs, ∀ s, Inv s →
      Inv (g s x) ∧ ∀ s', f s x = some s' ↔ P x ∧ s' = g s x)
    {s s' : σ} (hs : Inv s) :
    xs.foldlM f s = some s' ↔ (∀ x ∈ xs, P x) ∧ s' = xs.foldl g s := by
  induction xs generalizing s with
  | nil => simp [eq_comm]
  | cons x xs ih =>
      obtain ⟨hx, hxs⟩ := List.forall_mem_cons.1 hstep
      obtain ⟨hnext, hiff⟩ := hx s hs
      rw [List.foldlM_cons, Option.bind_eq_bind, Option.bind_eq_some_iff, List.foldl_cons,
        List.forall_mem_cons]
      simp only [hiff, and_assoc, exists_and_left, exists_eq_left, ih hxs hnext]

theorem mapM_eq_some_iff {f : α → Option β} {g : α → β} {P : α → Prop} {ys : List β}
    (h : ∀ x ∈ xs, ∀ y, f x = some y ↔ P x ∧ y = g x) :
    xs.mapM f = some ys ↔ (∀ x ∈ xs, P x) ∧ ys = xs.map g := by
  induction xs generalizing ys with
  | nil => simp [eq_comm]
  | cons x xs ih =>
      obtain ⟨hx, hxs⟩ := List.forall_mem_cons.1 h
      rw [List.mapM_cons, Option.bind_eq_bind, Option.bind_eq_some_iff, List.map_cons,
        List.forall_mem_cons]
      simp only [hx, Option.bind_eq_bind, Option.bind_eq_some_iff, ih hxs, Option.pure_def,
        Option.some_inj, and_assoc, exists_and_left, exists_eq_left]
      rw [@eq_comm _ ys]

theorem mapM_eq_some {f : α → Option β} {g : α → β} (h : ∀ x ∈ xs, f x = some (g x)) :
    xs.mapM f = some (xs.map g) :=
  (mapM_eq_some_iff (P := fun _ => True) fun x hx y => by simp [h x hx, eq_comm]).2
    ⟨fun _ _ => trivial, rfl⟩

theorem map_of_mapM {f : α → Option β} {g : α → β} (h : ∀ x y, f x = some y → g x = y)
    {ys : List β} (hf : xs.mapM f = some ys) : xs.map g = ys := by
  induction xs generalizing ys with
  | nil => simpa using hf
  | cons x xs ih =>
      simp only [List.mapM_cons, Option.bind_eq_bind, Option.bind_eq_some_iff, Option.pure_def,
        Option.some_inj] at hf
      obtain ⟨y, hy, rest, hrest, rfl⟩ := hf
      rw [List.map_cons, h _ _ hy, ih hrest]

/-- Loops agree whose steps agree as long as an invariant of one of them holds. -/
theorem foldl_congr_of_inv {f g : σ → α → σ} (Inv : σ → Prop)
    (hstep : ∀ x ∈ xs, ∀ s, Inv s → Inv (g s x) ∧ f s x = g s x) {s : σ} (hs : Inv s) :
    xs.foldl f s = xs.foldl g s := by
  induction xs generalizing s with
  | nil => rfl
  | cons x xs ih =>
      obtain ⟨hx, hxs⟩ := List.forall_mem_cons.1 hstep
      obtain ⟨hnext, heq⟩ := hx s hs
      rw [List.foldl_cons, List.foldl_cons, heq, ih hxs hnext]

end Loops
end Checked
