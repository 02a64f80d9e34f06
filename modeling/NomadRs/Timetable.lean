import Mathlib.Order.Bounds.Basic
import Mathlib.Order.Interval.Set.Defs
import Mathlib.Tactic

/-!
# Timetables

A set of instants at which something fires, searched by asking for the next one after an instant.
`find` asks again and again, from some instant on, for one that is late enough; it answers with
the next one after the later of the two (`find_eq`). `take` lists the instants one after another.
-/

/-- Firing times, with the search for the least one after an instant. -/
structure Timetable where
  fires : Set ℤ
  next : ℤ → Option ℤ
  isLeast_of_next : ∀ {t u}, next t = some u → IsLeast (fires ∩ Set.Ioi t) u
  le_of_next_eq_none : ∀ {t}, next t = none → ∀ u ∈ fires, u ≤ t

namespace Timetable

variable {T : Timetable} {t u : ℤ}

theorem next_eq_some_iff : T.next t = some u ↔ IsLeast (T.fires ∩ Set.Ioi t) u := by
  refine ⟨T.isLeast_of_next, fun hu => ?_⟩
  cases hnext : T.next t with
  | none => exact absurd (T.le_of_next_eq_none hnext u hu.1.1) (not_le.2 hu.1.2)
  | some v => rw [(T.isLeast_of_next hnext).unique hu]

theorem next_eq_none_iff : T.next t = none ↔ ∀ u ∈ T.fires, u ≤ t := by
  refine ⟨T.le_of_next_eq_none, fun hall => ?_⟩
  rw [Option.eq_none_iff_forall_ne_some]
  intro u hu
  have hleast := T.isLeast_of_next hu
  exact absurd (hall u hleast.1.1) (not_le.2 hleast.1.2)

theorem lt_of_next (h : T.next t = some u) : t < u := (T.isLeast_of_next h).1.2

theorem next_eq_next (hle : t ≤ u) (h : ∀ v ∈ T.fires, t < v → u < v) : T.next u = T.next t := by
  cases hnext : T.next t with
  | none =>
      rw [next_eq_none_iff] at hnext ⊢
      exact fun v hv => (hnext v hv).trans hle
  | some v =>
      rw [next_eq_some_iff] at hnext ⊢
      obtain ⟨⟨hv, htv⟩, hleast⟩ := hnext
      exact ⟨⟨hv, h v hv htv⟩, fun w hw => hleast ⟨hw.1, hle.trans_lt hw.2⟩⟩

/-- The first firing time after `after` that an enumeration starting at `now` comes to. -/
def find (T : Timetable) (now after : ℤ) : Option ℤ :=
  match _ : T.next now with
  | none => none
  | some t => if after < t then some t else T.find t after
termination_by (after - now).toNat
decreasing_by
  have hlt := lt_of_next ‹T.next now = some t›
  omega

theorem find_eq (T : Timetable) (now after : ℤ) : T.find now after = T.next (max now after) := by
  induction now using find.induct T after with
  | case1 now hnext =>
      rw [find, hnext, eq_comm, next_eq_none_iff]
      exact fun u hu => (T.le_of_next_eq_none hnext u hu).trans (le_max_left _ _)
  | case2 now t hnext hlate =>
      -- nothing fires between `now` and `t`
      rw [find, hnext]
      have hleast := (T.isLeast_of_next hnext).2
      have hsame : T.next (max now after) = T.next now :=
        next_eq_next (le_max_left _ _) fun v hv hnow =>
          (max_lt (lt_of_next hnext) hlate).trans_le (hleast ⟨hv, hnow⟩)
      simp [hlate, hsame, hnext]
  | case3 now t hnext hearly ih =>
      have hnow := lt_of_next hnext
      rw [find, hnext]
      simp only [hearly, if_false, ih]
      rw [max_eq_right (not_lt.1 hearly), max_eq_right (hnow.le.trans (not_lt.1 hearly))]

/-- The next `n` firing times after an instant, or all of them if there are fewer. -/
def take (T : Timetable) : ℤ → ℕ → List ℤ
  | _, 0 => []
  | t, n + 1 =>
    match T.next t with
    | none => []
    | some u => u :: T.take u n

/-- No firing time is left out. -/
theorem mem_take {n : ℕ} (hu : u ∈ T.fires) (htu : t < u) (hn : u - t ≤ n) : u ∈ T.take t n := by
  induction n generalizing t with
  | zero => omega
  | succ n ih =>
      rw [take]
      cases hnext : T.next t with
      | none => exact absurd (T.le_of_next_eq_none hnext u hu) (not_le.2 htu)
      | some v =>
          have hv := lt_of_next hnext
          rcases ((T.isLeast_of_next hnext).2 ⟨hu, htu⟩).eq_or_lt with rfl | hvu
          · exact List.mem_cons_self
          · exact List.mem_cons_of_mem _ (ih hvu (by push_cast at hn; omega))

end Timetable
