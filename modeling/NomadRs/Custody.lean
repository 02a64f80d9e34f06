import Mathlib.Tactic

/-!
# Tokens in custody

Every token is in a shared pool or with one of any number of holders, and nowhere twice. A holder
that exchanges tokens with the pool, and perhaps lets go of some, keeps it that way
(`Custody.exchange`), and what is let go of is then nowhere (`Custody.not_inCustody`).
-/

open scoped List

variable {ι τ : Type*} {held : ι → List τ} {pool pool' ts : List τ} {t : τ} {i : ι}

def InCustody (held : ι → List τ) (pool : List τ) (t : τ) : Prop := t ∈ pool ∨ ∃ i, t ∈ held i

/-- No token is in two places. -/
structure Custody (held : ι → List τ) (pool : List τ) : Prop where
  nodup : pool.Nodup
  each : ∀ i, (held i ++ pool).Nodup
  apart : ∀ i j, i ≠ j → (held i).Disjoint (held j)

namespace Custody

theorem nodup_of_subperm {l l' : List τ} (h : l <+~ l') (hl : l'.Nodup) : l.Nodup := by
  obtain ⟨k, hperm, hsub⟩ := h
  exact hperm.nodup_iff.1 (hl.sublist hsub)

theorem new : Custody (fun _ : ι => ([] : List τ)) [] := ⟨by simp, by simp, by simp⟩

theorem add (h : Custody held pool) (ht : ¬ InCustody held pool t) :
    Custody held (t :: pool) where
  nodup := List.nodup_cons.2 ⟨fun hmem => ht (.inl hmem), h.nodup⟩
  each i := by
    have hi : t ∉ held i := fun hmem => ht (.inr ⟨i, hmem⟩)
    have hpool : t ∉ pool := fun hmem => ht (.inl hmem)
    rw [List.perm_middle.nodup_iff, List.nodup_cons, List.mem_append, not_or]
    exact ⟨⟨hi, hpool⟩, h.each i⟩
  apart := h.apart

theorem append (h : Custody held pool) (hts : ts.Nodup) (hnew : ∀ t ∈ ts, ¬ InCustody held pool t) :
    Custody held (ts ++ pool) := by
  induction ts with
  | nil => exact h
  | cons t ts ih =>
      obtain ⟨ht, hts⟩ := List.nodup_cons.1 hts
      obtain ⟨hfirst, hnew⟩ := List.forall_mem_cons.1 hnew
      refine (ih hts hnew).add ?_
      rintro (hpool | hheld)
      · exact (List.mem_append.1 hpool).elim ht fun hpool => hfirst (.inl hpool)
      · exact hfirst (.inr hheld)

theorem of_subperm (h : Custody held pool) (hsub : pool' <+~ pool) : Custody held pool' where
  nodup := nodup_of_subperm hsub h.nodup
  each i := nodup_of_subperm ((List.subperm_append_left (held i)).2 hsub) (h.each i)
  apart := h.apart

section Exchange
variable [DecidableEq ι]

theorem inCustody_of_exchange (hsub : ts ++ pool' <+~ held i ++ pool)
    (ht : InCustody (Function.update held i ts) pool' t) : InCustody held pool t := by
  have hmem : t ∈ ts ++ pool' → InCustody held pool t := fun hmem =>
    (List.mem_append.1 (hsub.subset hmem)).elim (fun hi => .inr ⟨i, hi⟩) .inl
  rcases ht with hpool | ⟨j, hj⟩
  · exact hmem (List.mem_append_right _ hpool)
  · by_cases hji : j = i
    · rw [hji, Function.update_self] at hj
      exact hmem (List.mem_append_left _ hj)
    · rw [Function.update_of_ne hji] at hj
      exact .inr ⟨j, hj⟩

theorem inCustody_or_of_exchange {Settled : τ → Prop}
    (hkept : ∀ t ∈ held i ++ pool, t ∈ ts ++ pool' ∨ Settled t) (ht : InCustody held pool t) :
    InCustody (Function.update held i ts) pool' t ∨ Settled t := by
  have hmem : t ∈ held i ++ pool → InCustody (Function.update held i ts) pool' t ∨ Settled t := by
    refine fun hmem => (hkept t hmem).imp_left fun hmem => ?_
    refine (List.mem_append.1 hmem).elim (fun hts => .inr ⟨i, ?_⟩) .inl
    rwa [Function.update_self]
  rcases ht with hpool | ⟨j, hj⟩
  · exact hmem (List.mem_append_right _ hpool)
  · by_cases hji : j = i
    · exact hmem (List.mem_append_left _ (hji ▸ hj))
    · exact .inl (.inr ⟨j, by rwa [Function.update_of_ne hji]⟩)

/-- One holder and the pool exchange tokens, and may let go of some. -/
theorem exchange (h : Custody held pool) (hsub : ts ++ pool' <+~ held i ++ pool) :
    Custody (Function.update held i ts) pool' := by
  have hother {j : ι} (hj : j ≠ i) : (held j).Disjoint (ts ++ pool') := by
    intro t ht hmem
    rcases List.mem_append.1 (hsub.subset hmem) with hi | hpool
    · exact h.apart j i hj ht hi
    · exact (List.nodup_append'.1 (h.each j)).2.2 ht hpool
  have hboth : (ts ++ pool').Nodup := nodup_of_subperm hsub (h.each i)
  refine ⟨(List.nodup_append'.1 hboth).2.1, fun j => ?_, fun j k hjk => ?_⟩
  · by_cases hji : j = i
    · rw [hji, Function.update_self]
      exact hboth
    · rw [Function.update_of_ne hji, List.nodup_append']
      exact ⟨(List.nodup_append'.1 (h.each j)).1, (List.nodup_append'.1 hboth).2.1,
        fun t ht hpool => hother hji ht (List.mem_append_right _ hpool)⟩
  · by_cases hji : j = i
    · have hki : k ≠ i := fun hki => hjk (hji.trans hki.symm)
      rw [hji, Function.update_self, Function.update_of_ne hki]
      exact fun t ht hk => hother hki hk (List.mem_append_left _ ht)
    · rw [Function.update_of_ne hji]
      by_cases hki : k = i
      · rw [hki, Function.update_self]
        exact fun t ht hts => hother hji ht (List.mem_append_left _ hts)
      · rw [Function.update_of_ne hki]
        exact h.apart j k hjk

theorem not_inCustody (h : Custody held pool) (hsub : t :: (ts ++ pool') <+~ held i ++ pool) :
    ¬ InCustody (Function.update held i ts) pool' t := by
  have hnodup := List.nodup_cons.1 (nodup_of_subperm hsub (h.each i))
  rintro (hpool | ⟨j, hj⟩)
  · exact hnodup.1 (List.mem_append_right _ hpool)
  · by_cases hji : j = i
    · rw [hji, Function.update_self] at hj
      exact hnodup.1 (List.mem_append_left _ hj)
    · rw [Function.update_of_ne hji] at hj
      rcases List.mem_append.1 (hsub.subset List.mem_cons_self) with hi | hpool
      · exact h.apart j i hji hj hi
      · exact (List.nodup_append'.1 (h.each j)).2.2 hj hpool

end Exchange

theorem not_inCustody_of_cons (h : Custody held pool) (hsub : t :: pool' <+~ pool) :
    ¬ InCustody held pool' t := by
  rintro (hpool | ⟨j, hj⟩)
  · exact (List.nodup_cons.1 (nodup_of_subperm hsub h.nodup)).1 hpool
  · exact (List.nodup_append'.1 (h.each j)).2.2 hj (hsub.subset List.mem_cons_self)

end Custody
