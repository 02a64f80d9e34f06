import Mathlib.Tactic

/-!
# Transition systems

A system has start states and labelled steps. `ReachableVia guard` collects the states reached
by runs all of whose steps satisfy `guard`, a condition on a step's source state and label;
`Reachable` is the case without a condition. `ReachableVia.invariant` is the induction every
safety result is an instance of.

`exec` replays a list of labels through a step function, which puts concrete runs into
`Reachable`. `Simulates` transfers labelled traces from one system to another, and `Steps` counts
the steps of an unlabelled relation.
-/

/-- Start states and labelled steps. -/
structure System (σ ℓ : Type*) where
  start : σ → Prop
  step : σ → ℓ → σ → Prop

namespace System

variable {σ α ℓ : Type*}

/-- States reached by runs whose every step is allowed by the guard. -/
inductive ReachableVia (S : System σ ℓ) (guard : σ → ℓ → Prop) : σ → Prop
  | start {s : σ} : S.start s → ReachableVia S guard s
  | step {s s' : σ} {l : ℓ} :
      ReachableVia S guard s → guard s l → S.step s l s' → ReachableVia S guard s'

abbrev Reachable (S : System σ ℓ) : σ → Prop := S.ReachableVia fun _ _ => True

variable {S : System σ ℓ} {guard : σ → ℓ → Prop}

theorem ReachableVia.invariant (Inv : σ → Prop) (hstart : ∀ s, S.start s → Inv s)
    (hstep : ∀ s l s', Inv s → guard s l → S.step s l s' → Inv s')
    {s : σ} (h : S.ReachableVia guard s) : Inv s := by
  induction h with
  | start hs => exact hstart _ hs
  | step _ hg hs ih => exact hstep _ _ _ ih hg hs

theorem ReachableVia.mono {guard' : σ → ℓ → Prop} (hg : ∀ s l, guard s l → guard' s l) {s : σ}
    (h : S.ReachableVia guard s) : S.ReachableVia guard' s := by
  induction h with
  | start hs => exact .start hs
  | step _ hl hs ih => exact .step ih (hg _ _ hl) hs

theorem ReachableVia.next {s s' : σ} {l : ℓ} (h : S.ReachableVia guard s) (hs : S.step s l s')
    (hg : guard s l) : S.ReachableVia guard s' := .step h hg hs

theorem Reachable.next {s s' : σ} {l : ℓ} (h : S.Reachable s) (hs : S.step s l s') :
    S.Reachable s' := .step h trivial hs

/-- The replay of a list of labels through a step function. -/
def exec (next : σ → ℓ → Option σ) : σ → List ℓ → Option σ
  | s, [] => some s
  | s, l :: ls => (next s l).bind fun s' => exec next s' ls

theorem ReachableVia.exec {next : σ → ℓ → Option σ}
    (hnext : ∀ s l s', next s l = some s' → guard s l ∧ S.step s l s')
    {s s' : σ} {ls : List ℓ} (h : S.ReachableVia guard s) (he : exec next s ls = some s') :
    S.ReachableVia guard s' := by
  induction ls generalizing s with
  | nil =>
      cases he
      exact h
  | cons l ls ih =>
      obtain ⟨t, ht, he⟩ := Option.bind_eq_some_iff.1 he
      exact ih (h.next (hnext _ _ _ ht).2 (hnext _ _ _ ht).1) he

theorem ReachableVia.exists_of_exec {next : σ → ℓ → Option σ}
    (hnext : ∀ s l s', next s l = some s' → guard s l ∧ S.step s l s')
    {s : σ} (h : S.ReachableVia guard s) (ls : List ℓ) (p : σ → Bool)
    (he : (System.exec next s ls).any p = true) : ∃ s', S.ReachableVia guard s' ∧ p s' = true := by
  cases hs' : System.exec next s ls with
  | none => simp [hs'] at he
  | some s' => exact ⟨s', h.exec hnext hs', by simpa [hs'] using he⟩

/-- Every label of a replay is allowed in the state it is reached in. -/
def AllAllowed (next : σ → ℓ → Option σ) (guard : σ → ℓ → Prop) : σ → List ℓ → Prop
  | _, [] => True
  | s, l :: ls => guard s l ∧ ∀ s', next s l = some s' → AllAllowed next guard s' ls

/-- What a step keeps exactly if it is allowed, a replay keeps exactly if all its steps are. -/
theorem exec_iff_allAllowed {next : σ → ℓ → Option σ} {guard : σ → ℓ → Prop} {Inv : σ → Prop}
    (hstep : ∀ s l s', next s l = some s' → (Inv s' ↔ Inv s ∧ guard s l))
    {s t : σ} {ls : List ℓ} (he : exec next s ls = some t) :
    Inv t ↔ Inv s ∧ AllAllowed next guard s ls := by
  induction ls generalizing s with
  | nil =>
      cases he
      exact (and_iff_left trivial).symm
  | cons l ls ih =>
      obtain ⟨s', hs', he⟩ := Option.bind_eq_some_iff.1 he
      rw [ih he, hstep s l s' hs', AllAllowed, and_assoc, hs']
      simp only [Option.some.injEq, forall_eq']

def startingAt (S : System σ ℓ) (s : σ) : System σ ℓ := { S with start := fun t => t = s }

/-- What holds of the first state and every allowed step, and is transitive, holds of runs. -/
theorem ReachableVia.related (R : σ → σ → Prop) {s t : σ} (hrefl : R s s)
    (htrans : ∀ t l t', R s t → guard t l → S.step t l t' → R s t')
    (h : (S.startingAt s).ReachableVia guard t) : R s t := by
  induction h with
  | start ht => exact Eq.symm ht ▸ hrefl
  | step _ hg hstep ih => exact htrans _ _ _ ih hg hstep

/-! ## Traces and simulation -/

/-- The labels of a run from a start state, in order, with the state it ends in. -/
inductive Trace (S : System σ ℓ) : List ℓ → σ → Prop
  | start {s : σ} : S.start s → Trace S [] s
  | step {s s' : σ} {l : ℓ} {ls : List ℓ} :
      Trace S ls s → S.step s l s' → Trace S (ls ++ [l]) s'

/-- Every step of `S` is matched by a step of `A` with the same label. -/
structure Simulates (S : System σ ℓ) (A : System α ℓ) (R : σ → α → Prop) : Prop where
  start : ∀ s, S.start s → ∃ a, A.start a ∧ R s a
  step : ∀ s a l s', R s a → S.step s l s' → ∃ a', A.step a l a' ∧ R s' a'

theorem Simulates.trace {A : System α ℓ} {R : σ → α → Prop} (hsim : Simulates S A R)
    {ls : List ℓ} {s : σ} (h : S.Trace ls s) : ∃ a, A.Trace ls a ∧ R s a := by
  induction h with
  | start hs =>
      obtain ⟨a, ha, hr⟩ := hsim.start _ hs
      exact ⟨a, .start ha, hr⟩
  | step _ hs ih =>
      obtain ⟨a, ha, hr⟩ := ih
      obtain ⟨a', ha', hr'⟩ := hsim.step _ _ _ _ hr hs
      exact ⟨a', .step ha ha', hr'⟩

end System

/-! ## Counted steps -/

/-- `Steps r k s t`: `k` steps of `r` lead from `s` to `t`. -/
inductive Steps {σ : Type*} (r : σ → σ → Prop) : ℕ → σ → σ → Prop
  | refl (s : σ) : Steps r 0 s s
  | head {k : ℕ} {s t u : σ} : r s t → Steps r k t u → Steps r (k + 1) s u

theorem Steps.invariant {σ : Type*} {r : σ → σ → Prop} (Inv : σ → Prop)
    (hstep : ∀ s t, Inv s → r s t → Inv t) {k : ℕ} {s t : σ} (h : Steps r k s t) (hs : Inv s) :
    Inv t := by
  induction h with
  | refl => exact hs
  | head hr _ ih => exact ih (hstep _ _ hs hr)

theorem Steps.map {σ τ : Type*} {r : σ → σ → Prop} {r' : τ → τ → Prop} (f : σ → τ)
    (hstep : ∀ s t, r s t → r' (f s) (f t)) {k : ℕ} {s t : σ} (h : Steps r k s t) :
    Steps r' k (f s) (f t) := by
  induction h with
  | refl => exact .refl _
  | head hr _ ih => exact .head (hstep _ _ hr) ih

theorem Steps.collect {σ β : Type*} {r : σ → σ → Prop} (Inv : σ → Prop) (out : σ → List β)
    (P : β → Prop) (hstep : ∀ s t, Inv s → r s t → Inv t ∧ ∃ b, out t = out s ++ [b] ∧ P b)
    {k : ℕ} {s t : σ} (h : Steps r k s t) (hs : Inv s) :
    ∃ bs, out t = out s ++ bs ∧ bs.length = k ∧ ∀ b ∈ bs, P b := by
  induction h with
  | refl => exact ⟨[], by simp, rfl, by simp⟩
  | head hr _ ih =>
      obtain ⟨ht, b, hb, hp⟩ := hstep _ _ hs hr
      obtain ⟨bs, hbs, hlen, hall⟩ := ih ht
      refine ⟨b :: bs, ?_, by rw [List.length_cons, hlen], List.forall_mem_cons.2 ⟨hp, hall⟩⟩
      rw [hbs, hb, List.append_assoc]
      rfl
