import NomadRs.EvalQueue

/-!
# The ids a queue holds

The ids held by a queue are those of its pending, in-flight and blocked evaluations. `Counted`
says that they are distinct and that the queue's delivery counters agree with a count kept outside
of it. Every operation keeps `Counted` and changes the held ids by a permutation, by one id that
enters, or by ids that leave after their last delivery.
-/

open scoped List

namespace NomadRs

namespace EvalQueue

def held (q : EvalQueue) : List EvalId :=
  q.heap.map (fun pe => pe.eval.id) ++ q.inFlight.keys ++ q.blocked.map Evaluation.id

/-- The ids held before a step and not after it. -/
def lost (q q' : EvalQueue) : List EvalId := q.held.filter fun id => id ∉ q'.held

theorem held_length (q : EvalQueue) :
    q.held.length = q.depth.pending + q.depth.inFlight + q.depth.blocked := by
  simp [held, depth, AList.keys, List.keys, Nat.add_assoc]

@[simp] theorem held_push (q : EvalQueue) (e : Evaluation) (n : Nat) :
    (q.push e n).held = e.id :: q.held := rfl

theorem held_block (q : EvalQueue) (e : Evaluation) : (q.block e).held = q.held ++ [e.id] := by
  simp [held, block]

theorem held_ack {q : EvalQueue} {id : EvalId} {pe : PendingEval}
    (h : q.inFlight.lookup id = some pe) : q.held.Perm (id :: (q.ack id).held) := by
  have hkeys : q.inFlight.keys.Perm (id :: (q.ack id).inFlight.keys) :=
    HashMap.keys_perm_erase h
  calc
    q.held ~ q.heap.map (fun pe => pe.eval.id) ++ (id :: (q.ack id).inFlight.keys) ++
        q.blocked.map Evaluation.id := (hkeys.append_left _).append_right _
    _ ~ id :: (q.ack id).held := List.perm_middle.append_right _

theorem held_relayout {q : EvalQueue} {m : HashMap EvalId PendingEval}
    (h : q.inFlight.Relayout m) : q.held.Perm { q with inFlight := m }.held :=
  (h.keys_perm.append_left _).append_right _

theorem lost_perm {q q' : EvalQueue} {ids : List EvalId} (hnodup : q.held.Nodup)
    (h : q.held.Perm (ids ++ q'.held)) : (q.lost q').Perm ids := by
  have hdisj : ids.Disjoint q'.held := (List.nodup_append'.1 (h.nodup_iff.1 hnodup)).2.2
  have hids : ids.filter (fun id => id ∉ q'.held) = ids :=
    List.filter_eq_self.2 fun id hid => by simpa using hdisj hid
  have hrest : q'.held.filter (fun id => id ∉ q'.held) = [] :=
    List.filter_eq_nil_iff.2 fun id hid => by simpa using hid
  calc
    q.lost q' ~ (ids ++ q'.held).filter fun id => id ∉ q'.held := h.filter _
    _ = ids := by rw [List.filter_append, hids, hrest, List.append_nil]

end EvalQueue

/-! ## Delivery counts -/

/-- The delivery counts after a dequeue with the given answer. -/
def delivered (d : EvalId → ℕ) : Option Evaluation → EvalId → ℕ
  | none => d
  | some e => Function.update d e.id (d e.id + 1)

/-- The queue's delivery counters against the number of deliveries each id had. -/
structure Counted (q : EvalQueue) (deliveries : EvalId → ℕ) : Prop where
  nodup : q.held.Nodup
  keyed : ∀ id pe, q.inFlight.lookup id = some pe → pe.eval.id = id
  pending : ∀ pe ∈ q.heap,
    pe.dequeues < maxDequeue ∧ deliveries pe.eval.id = pe.dequeues
  inFlight : ∀ id pe, q.inFlight.lookup id = some pe →
    pe.dequeues ≤ maxDequeue ∧ deliveries id = pe.dequeues

namespace Counted
open EvalQueue
variable {q : EvalQueue} {d : EvalId → ℕ}

theorem new (d : EvalId → ℕ) : Counted .new d :=
  ⟨.nil, by simp [EvalQueue.new], by simp [EvalQueue.new], by simp [EvalQueue.new]⟩

theorem push (h : Counted q d) {e : Evaluation} {n : ℕ} (hfresh : e.id ∉ q.held)
    (hn : n < maxDequeue) (hd : d e.id = n) : Counted (q.push e n) d where
  nodup := List.nodup_cons.2 ⟨hfresh, h.nodup⟩
  keyed := h.keyed
  pending := List.forall_mem_cons.2 ⟨⟨hn, hd⟩, h.pending⟩
  inFlight := h.inFlight

theorem congr (h : Counted q d) {d' : EvalId → ℕ}
    (hd : ∀ id ∈ q.heap.map (fun pe => pe.eval.id) ++ q.inFlight.keys, d' id = d id) :
    Counted q d' where
  nodup := h.nodup
  keyed := h.keyed
  pending pe hpe := by
    rw [hd _ (List.mem_append_left _ (List.mem_map.2 ⟨pe, hpe, rfl⟩))]
    exact h.pending pe hpe
  inFlight id pe hpe := by
    rw [hd _ (List.mem_append_right _ (AList.lookup_isSome.1 (by rw [hpe]; rfl)))]
    exact h.inFlight id pe hpe

theorem enqueue (h : Counted q d) {e : Evaluation} (hfresh : e.id ∉ q.held) :
    Counted (q.enqueue e) (Function.update d e.id 0) := by
  have hcount : Counted q (Function.update d e.id 0) := by
    refine h.congr fun id hid => Function.update_of_ne ?_ _ _
    rintro rfl
    exact hfresh (List.mem_append_left _ hid)
  exact hcount.push hfresh (by decide) (Function.update_self ..)

theorem lookup_eq_none_of_pending (h : Counted q d) {pe : PendingEval} (hpe : pe ∈ q.heap) :
    q.inFlight.lookup pe.eval.id = none := by
  have hnodup := h.nodup
  rw [held, List.append_assoc] at hnodup
  have hdisj := (List.nodup_append'.1 hnodup).2.2 (List.mem_map.2 ⟨pe, hpe, rfl⟩)
  exact AList.lookup_eq_none.2 fun hmem => hdisj (List.mem_append_left _ hmem)

theorem ack (h : Counted q d) (id : EvalId) : Counted (q.ack id) d where
  nodup := by
    cases hpe : q.inFlight.lookup id with
    | none => exact (ack_of_lookup_none hpe).symm ▸ h.nodup
    | some pe => exact (List.nodup_cons.1 ((held_ack hpe).nodup_iff.1 h.nodup)).2
  keyed k pe hk := h.keyed k pe (HashMap.lookup_erase_eq_some.1 hk).2
  pending := h.pending
  inFlight k pe hk := h.inFlight k pe (HashMap.lookup_erase_eq_some.1 hk).2

theorem nack (h : Counted q d) (id : EvalId) : Counted (q.nack id) d ∧
    ∃ ids, q.held.Perm (ids ++ (q.nack id).held) ∧ ∀ k ∈ ids, k = id ∧ d k = maxDequeue := by
  cases hpe : q.inFlight.lookup id with
  | none =>
      rw [nack_of_lookup_none hpe]
      exact ⟨h, [], .refl _, by simp⟩
  | some pe =>
      rw [nack_of_lookup_some hpe]
      obtain ⟨hle, hcount⟩ := h.inFlight id pe hpe
      have hkey : pe.eval.id = id := h.keyed id pe hpe
      have hperm := held_ack hpe
      by_cases hlt : pe.dequeues < maxDequeue
      · rw [if_pos hlt]
        have hfresh : id ∉ (q.ack id).held :=
          (List.nodup_cons.1 (hperm.nodup_iff.1 h.nodup)).1
        refine ⟨(h.ack id).push (hkey ▸ hfresh) hlt (hkey ▸ hcount), [], ?_, by simp⟩
        rwa [held_push, hkey, List.nil_append]
      · rw [if_neg hlt]
        have hmax : d id = maxDequeue := by omega
        exact ⟨h.ack id, [id], hperm, by simpa using hmax⟩

theorem foldl_nack (ids : List EvalId) (h : Counted q d) :
    Counted (ids.foldl EvalQueue.nack q) d ∧ ∃ gone,
      q.held.Perm (gone ++ (ids.foldl EvalQueue.nack q).held) ∧
        ∀ k ∈ gone, k ∈ ids ∧ d k = maxDequeue := by
  induction ids generalizing q with
  | nil => exact ⟨h, [], .refl _, by simp⟩
  | cons id ids ih =>
      obtain ⟨h₁, gone₁, hperm₁, hgone₁⟩ := h.nack id
      obtain ⟨h₂, gone₂, hperm₂, hgone₂⟩ := ih h₁
      refine ⟨h₂, gone₁ ++ gone₂, ?_, fun k hk => ?_⟩
      · rw [List.append_assoc]
        exact hperm₁.trans (hperm₂.append_left _)
      · rcases List.mem_append.1 hk with hk | hk
        · obtain ⟨rfl, hmax⟩ := hgone₁ k hk
          exact ⟨List.mem_cons_self, hmax⟩
        · exact ⟨List.mem_cons_of_mem _ (hgone₂ k hk).1, (hgone₂ k hk).2⟩

theorem block (h : Counted q d) {e : Evaluation} (hfresh : e.id ∉ q.held) :
    Counted (q.block e) d where
  nodup := by
    rw [held_block, (List.perm_append_singleton _ _).nodup_iff]
    exact List.nodup_cons.2 ⟨hfresh, h.nodup⟩
  keyed := h.keyed
  pending := h.pending
  inFlight := h.inFlight

theorem held_park {e : Evaluation} {pe : PendingEval}
    (hpe : q.inFlight.lookup e.id = some pe) : q.held.Perm ((q.block e).ack e.id).held := by
  have hblock : (q.block e).held.Perm (e.id :: ((q.block e).ack e.id).held) := held_ack hpe
  rw [held_block] at hblock
  exact (List.perm_cons _).1 ((List.perm_append_singleton _ _).symm.trans hblock)

theorem park (h : Counted q d) {e : Evaluation} {pe : PendingEval}
    (hpe : q.inFlight.lookup e.id = some pe) : Counted ((q.block e).ack e.id) d :=
  { h.ack e.id with nodup := (held_park hpe).nodup_iff.1 h.nodup }

theorem relayout (h : Counted q d) {m : HashMap EvalId PendingEval}
    (hm : q.inFlight.Relayout m) : Counted { q with inFlight := m } d where
  nodup := (held_relayout hm).nodup_iff.1 h.nodup
  keyed id pe hpe := h.keyed id pe (by rwa [hm.lookup_eq])
  pending := h.pending
  inFlight id pe hpe := h.inFlight id pe (by rwa [hm.lookup_eq])

theorem unblockAll (h : Counted q d) :
    q.held.Perm q.unblockAll.2.held ∧ Counted q.unblockAll.2
      fun id => if id ∈ q.blocked.map Evaluation.id then 0 else d id := by
  obtain ⟨pes, hfold, hmap, hzero⟩ := foldl_push q.blocked { q with blocked := [] }
  have heq : q.unblockAll.2 =
      { q with heap := pes ++ q.heap, nextSeq := q.nextSeq + q.blocked.length, blocked := [] } :=
    hfold
  have hids : (pes.map fun pe => pe.eval.id).Perm (q.blocked.map Evaluation.id) := by
    rw [← hmap, List.map_map]
    exact (List.reverse_perm pes).symm.map _
  have hperm : q.held.Perm q.unblockAll.2.held := by
    rw [heq]
    simp only [held, List.map_append, List.map_nil, List.append_nil]
    rw [List.append_assoc (pes.map _)]
    exact List.perm_append_comm.trans (hids.symm.append_right _)
  have hnot {id : EvalId} (hid : id ∈ q.heap.map (fun pe => pe.eval.id) ++ q.inFlight.keys) :
      id ∉ q.blocked.map Evaluation.id := (List.nodup_append'.1 h.nodup).2.2 hid
  refine ⟨hperm, hperm.nodup_iff.1 h.nodup, ?_, ?_, ?_⟩
  · rw [heq]
    exact h.keyed
  · rw [heq]
    intro pe hpe
    rcases List.mem_append.1 hpe with hpe | hpe
    · have hmem : pe.eval.id ∈ q.blocked.map Evaluation.id :=
        hids.mem_iff.1 (List.mem_map.2 ⟨pe, hpe, rfl⟩)
      rw [hzero pe hpe, if_pos hmem]
      exact ⟨by decide, rfl⟩
    · rw [if_neg (hnot (List.mem_append_left _ (List.mem_map.2 ⟨pe, hpe, rfl⟩)))]
      exact h.pending pe hpe
  · rw [heq]
    intro id pe hpe
    rw [if_neg (hnot (List.mem_append_right _ (AList.lookup_isSome.1 (by rw [hpe]; rfl))))]
    exact h.inFlight id pe hpe

theorem dequeue (h : Counted q d) (now : Instant) :
    q.held.Perm (q.dequeue now).2.held ∧ Counted (q.dequeue now).2 (delivered d (q.dequeue now).1) ∧
    ∀ e, (q.dequeue now).1 = some e → d e.id < maxDequeue := by
  rcases q.dequeue_cases now with ⟨_, hq⟩ | ⟨pe, heap, hpop, hq⟩
  · rw [hq]
    exact ⟨.refl _, h, by simp⟩
  · rw [hq]
    have hheap : q.heap.Perm (pe :: heap) := popGreatest_perm hpop
    obtain ⟨hlt, hcount⟩ := h.pending pe (hheap.mem_iff.2 List.mem_cons_self)
    set pe' : PendingEval := { pe with dequeues := pe.dequeues + 1, dequeuedAt := some now }
    have hfirst : q.held.Perm (pe.eval.id :: (heap.map (fun pe => pe.eval.id) ++
        q.inFlight.keys ++ q.blocked.map Evaluation.id)) :=
      ((hheap.map _).append_right _).append_right _
    have hnot : pe.eval.id ∉ heap.map (fun pe => pe.eval.id) ++ q.inFlight.keys ++
        q.blocked.map Evaluation.id := (List.nodup_cons.1 (hfirst.nodup_iff.1 h.nodup)).1
    simp only [List.mem_append, not_or] at hnot
    obtain ⟨⟨hnotHeap, hnotFlight⟩, _⟩ := hnot
    have hkeys : (q.inFlight.insert pe.eval.id pe').keys = pe.eval.id :: q.inFlight.keys := by
      rw [AList.keys_insert, List.erase_of_not_mem hnotFlight]
    have hperm : q.held.Perm { q with
        heap, inFlight := q.inFlight.insert pe.eval.id pe' : EvalQueue }.held := by
      simp only [held, hkeys]
      exact hfirst.trans (List.perm_middle.symm.append_right _)
    refine ⟨hperm, ⟨hperm.nodup_iff.1 h.nodup, ?_, ?_, ?_⟩, ?_⟩
    · intro id pe₁ hpe₁
      rcases HashMap.lookup_insert_eq_some.1 hpe₁ with ⟨rfl, rfl⟩ | ⟨_, hpe₁⟩
      · rfl
      · exact h.keyed id pe₁ hpe₁
    · intro pe₁ hpe₁
      have hne : pe₁.eval.id ≠ pe.eval.id :=
        fun heq => hnotHeap (heq ▸ List.mem_map.2 ⟨pe₁, hpe₁, rfl⟩)
      rw [delivered, Function.update_of_ne hne]
      exact h.pending pe₁ (hheap.mem_iff.2 (List.mem_cons_of_mem _ hpe₁))
    · intro id pe₁ hpe₁
      rcases HashMap.lookup_insert_eq_some.1 hpe₁ with ⟨rfl, rfl⟩ | ⟨hne, hpe₁⟩
      · rw [delivered, Function.update_self, hcount]
        exact ⟨hlt, rfl⟩
      · rw [delivered, Function.update_of_ne hne]
        exact h.inFlight id pe₁ hpe₁
    · rintro e he
      cases he
      omega

end Counted
end NomadRs
