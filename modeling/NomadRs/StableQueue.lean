import Mathlib.Data.List.Perm.Basic
import Mathlib.Order.Compare
import Mathlib.Tactic

/-!
# Stable priority queues and stamped heaps

A stable priority queue lists its elements in the order of their insertion; `Dequeue` removes, of
the elements of highest priority, the one inserted first. A heap knows no insertion order, but
elements that carry increasing stamps and compare by `stampCmp` leave it in the stable order:
`Stamped heap q` says that the heap holds the elements of the queue `q`, and pushing a fresh
stamp (`Stamped.push`) or removing a greatest element (`Stamped.pop`) keeps the two in step.
-/

variable {α β P : Type*}

/-- Remove a greatest element under `cmp` from a collection. -/
def popGreatest (cmp : α → α → Ordering) : List α → Option (α × List α)
  | [] => none
  | a :: l =>
    match popGreatest cmp l with
    | none => some (a, [])
    | some (b, rest) => if (cmp a b).isLT then some (b, a :: rest) else some (a, l)

@[simp] theorem popGreatest_eq_none {cmp : α → α → Ordering} {l : List α} :
    popGreatest cmp l = none ↔ l = [] := by
  cases l with
  | nil => simp [popGreatest]
  | cons a l =>
      simp only [popGreatest, reduceCtorEq, iff_false]
      split
      · simp
      · split <;> simp

theorem popGreatest_perm {cmp : α → α → Ordering} {l rest : List α} {a : α}
    (h : popGreatest cmp l = some (a, rest)) : l.Perm (a :: rest) := by
  induction l generalizing a rest with
  | nil => cases h
  | cons b l ih =>
      rw [popGreatest] at h
      split at h
      next hl =>
        cases h
        rw [popGreatest_eq_none.1 hl]
      next c rest' hl =>
        have hperm : l.Perm (c :: rest') := ih hl
        split at h
        · cases h
          exact (hperm.cons b).trans (.swap ..)
        · cases h
          exact .refl _

theorem popGreatest_greatest {cmp : α → α → Ordering} [Std.TransCmp cmp] {l rest : List α} {a : α}
    (h : popGreatest cmp l = some (a, rest)) : ∀ b ∈ l, (cmp a b).isGE = true := by
  induction l generalizing a rest with
  | nil => cases h
  | cons b l ih =>
      have hrefl (d : α) : (cmp d d).isGE = true := by simp [Std.ReflCmp.compare_self]
      rw [popGreatest] at h
      split at h
      next hl =>
        cases h
        rw [popGreatest_eq_none.1 hl]
        simpa using hrefl _
      next c rest' hl =>
        have hbest : ∀ d ∈ l, (cmp c d).isGE = true := ih hl
        split at h
        next hlt =>
          cases h
          have hcb : cmp a b = .gt := Std.OrientedCmp.gt_of_lt (Ordering.isLT_iff_eq_lt.1 hlt)
          exact List.forall_mem_cons.2 ⟨by rw [hcb]; rfl, hbest⟩
        next hge =>
          cases h
          have hac : (cmp b c).isGE = true := by
            cases hcmp : cmp b c <;> simp_all
          exact List.forall_mem_cons.2
            ⟨hrefl _, fun d hd => Std.TransCmp.isGE_trans hac (hbest d hd)⟩

/-! ## The stable queue -/

namespace StableQueue

variable [LinearOrder P]

/-- Dequeuing from `q` answers `none` when it is empty, else the first of the elements of highest
priority, and leaves the others in their order. -/
inductive Dequeue (prio : α → P) : List α → Option α → List α → Prop
  | empty : Dequeue prio [] none []
  | first (l₁ : List α) (a : α) (l₂ : List α) :
      (∀ b ∈ l₁, prio b < prio a) → (∀ b ∈ l₂, prio b ≤ prio a) →
      Dequeue prio (l₁ ++ a :: l₂) (some a) (l₁ ++ l₂)

theorem Dequeue.map {prio : β → P} (f : α → β) {q q' : List α} {a : Option α}
    (h : Dequeue (prio ∘ f) q a q') : Dequeue prio (q.map f) (a.map f) (q'.map f) := by
  cases h with
  | empty => exact .empty
  | first l₁ a l₂ h₁ h₂ =>
      rw [List.map_append, List.map_cons, List.map_append]
      refine .first _ _ _ ?_ ?_
      · exact List.forall_mem_map.2 h₁
      · exact List.forall_mem_map.2 h₂

/-- A queue that is dequeued until it is empty, with what it answers. -/
inductive Drains (prio : α → P) : List α → List α → Prop
  | nil : Drains prio [] []
  | cons {q q' out : List α} {a : α} :
      Dequeue prio q (some a) q' → Drains prio q' out → Drains prio q (a :: out)

theorem Drains.map {prio : β → P} (f : α → β) {q out : List α} (h : Drains (prio ∘ f) q out) :
    Drains prio (q.map f) (out.map f) := by
  induction h with
  | nil => exact .nil
  | cons hdeq _ ih => exact .cons (hdeq.map f) ih

theorem Dequeue.unique {prio : α → P} {q q₁ q₂ : List α} {a₁ a₂ : Option α}
    (h₁ : Dequeue prio q a₁ q₁) (h₂ : Dequeue prio q a₂ q₂) : a₁ = a₂ ∧ q₁ = q₂ := by
  cases h₁ with
  | empty =>
      generalize hq : ([] : List α) = q at h₂
      cases h₂ with
      | empty => exact ⟨rfl, rfl⟩
      | first l₁ a l₂ _ _ => simp at hq
  | first l₁ a l₂ hl₁ hl₂ =>
      generalize hq : l₁ ++ a :: l₂ = q at h₂
      cases h₂ with
      | empty => simp at hq
      | first m₁ b m₂ hm₁ hm₂ =>
          -- of two places the earlier one would hold the lower priority and the higher one
          rcases List.append_eq_append_iff.1 hq with ⟨c, rfl, hc⟩ | ⟨c, rfl, hc⟩
          · cases c with
            | nil => simpa using hc
            | cons d c =>
                obtain ⟨rfl, rfl⟩ := List.cons.inj hc
                have hlt := hm₁ a (List.mem_append_right _ List.mem_cons_self)
                have hle := hl₂ b (List.mem_append_right _ List.mem_cons_self)
                exact absurd hle hlt.not_ge
          · cases c with
            | nil =>
                obtain ⟨rfl, rfl⟩ := List.cons.inj hc
                simp
            | cons d c =>
                obtain ⟨rfl, rfl⟩ := List.cons.inj hc
                have hlt := hl₁ b (List.mem_append_right _ List.mem_cons_self)
                have hle := hm₂ a (List.mem_append_right _ List.mem_cons_self)
                exact absurd hle hlt.not_ge

theorem Drains.unique {prio : α → P} {q out₁ out₂ : List α} (h₁ : Drains prio q out₁)
    (h₂ : Drains prio q out₂) : out₁ = out₂ := by
  induction h₁ generalizing out₂ with
  | nil =>
      generalize hq : ([] : List α) = q at h₂
      cases h₂ with
      | nil => rfl
      | cons hdeq _ =>
          rw [← hq] at hdeq
          cases (Dequeue.empty.unique hdeq).1
  | cons hdeq _ ih =>
      cases h₂ with
      | nil => cases (Dequeue.empty.unique hdeq).1
      | cons hdeq' hrest =>
          obtain ⟨ha, rfl⟩ := hdeq.unique hdeq'
          rw [Option.some.inj ha, ih hrest]

theorem Drains.mem_iff {prio : α → P} {q out : List α} (h : Drains prio q out) (a : α) :
    a ∈ out ↔ a ∈ q := by
  induction h with
  | nil => rfl
  | cons hdeq _ ih =>
      cases hdeq with
      | first l₁ b l₂ _ _ =>
          rw [List.mem_cons, ih, List.mem_append, List.mem_append, List.mem_cons]
          tauto

/-- What is queued in the order of the priorities is dequeued in the order of the queue. -/
theorem Drains.of_pairwise {prio : α → P} {q : List α}
    (h : q.Pairwise fun a b => prio b ≤ prio a) : Drains prio q q := by
  induction q with
  | nil => exact .nil
  | cons a q ih =>
      obtain ⟨ha, hq⟩ := List.pairwise_cons.1 h
      exact .cons (.first [] a q (by simp) ha) (ih hq)

/-- The elements from a priority on are dequeued as if the others were not there, and first. -/
theorem Drains.split {prio : α → P} {q out : List α} (h : Drains prio q out) (p : P) :
    ∃ out₁ out₂, out = out₁ ++ out₂ ∧ Drains prio (q.filter fun a => p ≤ prio a) out₁ ∧
      ∀ a ∈ out₂, prio a < p := by
  induction h with
  | nil => exact ⟨[], [], rfl, .nil, by simp⟩
  | @cons q q' out a hdeq hrest ih =>
      by_cases ha : p ≤ prio a
      · obtain ⟨out₁, out₂, rfl, hdrains, hlow⟩ := ih
        refine ⟨a :: out₁, out₂, rfl, .cons ?_ hdrains, hlow⟩
        cases hdeq with
        | first l₁ _ l₂ hl₁ hl₂ =>
            rw [List.filter_append, List.filter_append, List.filter_cons_of_pos (by simpa using ha)]
            exact .first _ _ _ (fun b hb => hl₁ b (List.mem_of_mem_filter hb))
              fun b hb => hl₂ b (List.mem_of_mem_filter hb)
      · have hlow : ∀ b ∈ q, prio b < p := by
          cases hdeq with
          | first l₁ _ l₂ hl₁ hl₂ =>
              intro b hb
              rcases List.mem_append.1 hb with hb | hb
              · exact (hl₁ b hb).trans (not_le.1 ha)
              · rcases List.mem_cons.1 hb with rfl | hb
                · exact not_le.1 ha
                · exact (hl₂ b hb).trans_lt (not_le.1 ha)
        have hnil : (q.filter fun a => p ≤ prio a) = [] := by
          rw [List.filter_eq_nil_iff]
          intro b hb
          simpa using hlow b hb
        refine ⟨[], a :: out, rfl, by rw [hnil]; exact .nil, fun b hb => hlow b ?_⟩
        exact ((hrest.cons hdeq).mem_iff b).1 hb

/-! ## Heaps of stamped elements -/

/-- Highest priority first and, among equal priorities, lowest stamp first. -/
def stampCmp (prio : α → P) (stamp : α → ℕ) : α → α → Ordering :=
  compareLex (compareOn prio) fun a b => compareOn stamp b a

instance (prio : α → P) (stamp : α → ℕ) : Std.TransCmp (stampCmp prio stamp) :=
  inferInstanceAs (Std.TransCmp (compareLex _ _))

theorem stampCmp_isGE {prio : α → P} {stamp : α → ℕ} {a b : α} :
    (stampCmp prio stamp a b).isGE = true ↔
      prio b < prio a ∨ (prio b = prio a ∧ stamp a ≤ stamp b) := by
  simp only [stampCmp, compareLex, compareOn]
  rcases lt_trichotomy (prio a) (prio b) with h | h | h
  · rw [compare_lt_iff_lt.2 h]
    simp [h.not_gt, h.ne']
  · rw [compare_eq_iff_eq.2 h]
    simp only [Ordering.then, h, lt_self_iff_false, true_and, false_or]
    rw [← compare_ge_iff_ge]
    cases compare (stamp b) (stamp a) <;> simp
  · rw [compare_gt_iff_gt.2 h]
    simp [h]

/-- The heap holds the elements of the queue, which are listed by increasing stamp. -/
structure Stamped (stamp : α → ℕ) (heap q : List α) : Prop where
  perm : heap.Perm q
  increasing : q.Pairwise fun a b => stamp a < stamp b

variable {prio : α → P} {stamp : α → ℕ} {heap q : List α}

theorem Stamped.nil : Stamped stamp [] [] := ⟨.refl _, .nil⟩

theorem Stamped.push (h : Stamped stamp heap q) {a : α} (ha : ∀ b ∈ heap, stamp b < stamp a) :
    Stamped stamp (a :: heap) (q ++ [a]) where
  perm := (h.perm.cons a).trans (List.perm_append_singleton a q).symm
  increasing := by
    refine List.pairwise_append.2 ⟨h.increasing, List.pairwise_singleton _ _, ?_⟩
    intro b hb c hc
    rw [List.mem_singleton.1 hc]
    exact ha b (h.perm.mem_iff.2 hb)

/-- Removing a greatest element from the heap is dequeuing from the queue. -/
theorem Stamped.pop (h : Stamped stamp heap q) {a : α} {rest : List α}
    (hpop : popGreatest (stampCmp prio stamp) heap = some (a, rest)) :
    ∃ q', Dequeue prio q (some a) q' ∧ Stamped stamp rest q' := by
  have hperm : heap.Perm (a :: rest) := popGreatest_perm hpop
  have hmem : a ∈ q := h.perm.mem_iff.1 (hperm.mem_iff.2 List.mem_cons_self)
  have hbest {b : α} (hb : b ∈ q) : prio b < prio a ∨ (prio b = prio a ∧ stamp a ≤ stamp b) :=
    stampCmp_isGE.1 (popGreatest_greatest hpop b (h.perm.mem_iff.2 hb))
  obtain ⟨l₁, l₂, rfl⟩ := List.append_of_mem hmem
  have hinc := h.increasing
  rw [List.pairwise_append, List.pairwise_cons] at hinc
  obtain ⟨hl₁, ⟨_, hl₂⟩, hcross⟩ := hinc
  refine ⟨l₁ ++ l₂, .first l₁ a l₂ ?_ ?_, ?_, ?_⟩
  · intro b hb
    -- an earlier element of the same priority would have the lower stamp
    have hlt : stamp b < stamp a := hcross b hb a List.mem_cons_self
    rcases hbest (List.mem_append_left _ hb) with hp | ⟨_, hle⟩
    · exact hp
    · omega
  · intro b hb
    rcases hbest (List.mem_append_right _ (List.mem_cons_of_mem _ hb)) with hp | ⟨hp, _⟩
    · exact hp.le
    · exact hp.le
  · exact (List.perm_cons a).1 (hperm.symm.trans (h.perm.trans List.perm_middle))
  · exact List.pairwise_append.2
      ⟨hl₁, hl₂, fun b hb c hc => hcross b hb c (List.mem_cons_of_mem _ hc)⟩

/-- A heap in the order of the comparison is its queue, drained. -/
theorem Stamped.drains (h : Stamped stamp heap q) {out : List α} (hperm : out.Perm heap)
    (hsorted : out.Pairwise fun a b => (stampCmp prio stamp a b).isGE = true) :
    Drains prio q out := by
  induction out generalizing heap q with
  | nil =>
      obtain rfl : q = [] := (hperm.trans h.perm).nil_eq.symm
      exact .nil
  | cons a out ih =>
      rw [List.pairwise_cons] at hsorted
      have hpermq : (a :: out).Perm q := hperm.trans h.perm
      obtain ⟨l₁, l₂, rfl⟩ := List.append_of_mem (hpermq.mem_iff.1 List.mem_cons_self)
      have hrest : out.Perm (l₁ ++ l₂) := (List.perm_cons a).1 (hpermq.trans List.perm_middle)
      have hinc := h.increasing
      rw [List.pairwise_append, List.pairwise_cons] at hinc
      obtain ⟨hl₁, ⟨_, hl₂⟩, hcross⟩ := hinc
      refine .cons (.first l₁ a l₂ ?_ ?_) (ih ⟨.refl _, ?_⟩ hrest hsorted.2)
      · intro b hb
        have hlt : stamp b < stamp a := hcross b hb a List.mem_cons_self
        have hge := hsorted.1 b (hrest.mem_iff.2 (List.mem_append_left _ hb))
        rw [stampCmp_isGE] at hge
        rcases hge with hp | ⟨_, hle⟩
        · exact hp
        · omega
      · intro b hb
        have hge := hsorted.1 b (hrest.mem_iff.2 (List.mem_append_right _ hb))
        rw [stampCmp_isGE] at hge
        rcases hge with hp | ⟨hp, _⟩
        · exact hp.le
        · exact hp.le
      · exact List.pairwise_append.2
          ⟨hl₁, hl₂, fun b hb c hc => hcross b hb c (List.mem_cons_of_mem _ hc)⟩

/-! ## Waiting -/

def ahead (prio : α → P) (stamp : α → ℕ) (a : α) (heap : List α) : ℕ :=
  heap.countP fun b => (stampCmp prio stamp b a).isGT

theorem stampCmp_isGT {a b : α} : (stampCmp prio stamp a b).isGT = true ↔
    prio b < prio a ∨ (prio b = prio a ∧ stamp a < stamp b) := by
  simp only [stampCmp, compareLex, compareOn]
  rcases lt_trichotomy (prio a) (prio b) with h | h | h
  · rw [compare_lt_iff_lt.2 h]
    simp [h.not_gt, h.ne']
  · rw [compare_eq_iff_eq.2 h]
    simp only [Ordering.then, h, lt_self_iff_false, true_and, false_or]
    rw [← compare_gt_iff_gt]
    cases compare (stamp b) (stamp a) <;> simp
  · rw [compare_gt_iff_gt.2 h]
    simp [h]

theorem ahead_append {a : α} {new : List α} (hnew : ∀ b ∈ new, stamp a < stamp b) :
    ahead prio stamp a (new ++ heap) =
      ahead prio stamp a heap + new.countP fun b => prio a < prio b := by
  rw [ahead, List.countP_append, Nat.add_comm]
  congr 1
  refine List.countP_congr fun b hb => ?_
  rw [stampCmp_isGT, decide_eq_true_iff]
  have := hnew b hb
  constructor
  · rintro (hlt | ⟨_, hlt⟩)
    · exact hlt
    · omega
  · exact .inl

theorem ahead_pop {a b : α} {rest : List α} (hstamps : (heap.map stamp).Nodup)
    (hpop : popGreatest (stampCmp prio stamp) heap = some (b, rest)) (ha : a ∈ rest) :
    ahead prio stamp a heap = ahead prio stamp a rest + 1 := by
  have hperm : heap.Perm (b :: rest) := popGreatest_perm hpop
  have hne : stamp b ≠ stamp a := by
    have hnodup := (hperm.map stamp).nodup_iff.1 hstamps
    intro he
    exact (List.nodup_cons.1 hnodup).1 (he ▸ List.mem_map_of_mem ha)
  have hgt : (stampCmp prio stamp b a).isGT = true := by
    have hge := popGreatest_greatest hpop a (hperm.mem_iff.2 (List.mem_cons_of_mem b ha))
    rw [stampCmp_isGE] at hge
    rw [stampCmp_isGT]
    exact hge.imp_right fun ⟨hp, hle⟩ => ⟨hp, lt_of_le_of_ne hle hne⟩
  rw [ahead, hperm.countP_eq, List.countP_cons, if_pos hgt]
  rfl

theorem ahead_popped {a : α} {rest : List α}
    (hpop : popGreatest (stampCmp prio stamp) heap = some (a, rest)) :
    ahead prio stamp a heap = 0 := by
  rw [ahead, List.countP_eq_zero]
  intro b hb
  have hge := popGreatest_greatest hpop b hb
  rw [stampCmp_isGE] at hge
  rw [stampCmp_isGT]
  rintro (hlt | ⟨hp, hlt⟩)
  · rcases hge with h | ⟨h, _⟩
    · exact absurd hlt h.not_gt
    · exact absurd hlt h.not_gt
  · rcases hge with h | ⟨_, h⟩
    · exact absurd hp h.ne'
    · omega

end StableQueue
