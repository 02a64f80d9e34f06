import Mathlib.Tactic

/-!
# Numbered names

Names made of a stem, a dash and a number. Digits contain no dash, so the last dash separates the
two parts again, whatever dashes the stem contains.
-/

namespace NumberedName

theorem left_eq_of_notMem {α : Type*} {a : α} {l₁ l₂ r₁ r₂ : List α} (h₁ : a ∉ r₁)
    (h₂ : a ∉ r₂) (h : l₁ ++ a :: r₁ = l₂ ++ a :: r₂) : l₁ = l₂ := by
  rcases List.append_eq_append_iff.1 h with ⟨l, rfl, hr⟩ | ⟨l, rfl, hr⟩
  · cases l with
    | nil => simp
    | cons b l =>
        rw [List.cons_append] at hr
        exact absurd ((List.cons.inj hr).2 ▸ by simp) h₁
  · cases l with
    | nil => simp
    | cons b l =>
        rw [List.cons_append] at hr
        exact absurd ((List.cons.inj hr).2 ▸ by simp) h₂

theorem dash_notMem_toDigits (n : ℕ) : '-' ∉ Nat.toDigits 10 n := by
  intro h
  have hdigit := Nat.isDigit_of_mem_toDigits (by decide) (by decide) h
  revert hdigit
  decide

theorem toList_eq (s : String) (n : ℕ) :
    (s!"{s}-{n}").toList = s.toList ++ '-' :: Nat.toDigits 10 n := by simp [toString]

/-- The last number of a name can be taken off. -/
theorem stem_eq {s t : String} {n m : ℕ} (h : s!"{s}-{n}" = s!"{t}-{m}") : s = t := by
  have hl := congrArg String.toList h
  rw [toList_eq, toList_eq] at hl
  exact String.toList_injective
    (left_eq_of_notMem (dash_notMem_toDigits n) (dash_notMem_toDigits m) hl)

theorem number_eq {s : String} {n m : ℕ} (h : s!"{s}-{n}" = s!"{s}-{m}") : n = m := by
  have hl := congrArg String.toList h
  rw [toList_eq, toList_eq, List.append_cancel_left_eq, List.cons_inj_right] at hl
  have hvalue := congrArg (Nat.ofDigitChars 10 · 0) hl
  simpa using hvalue

end NumberedName
