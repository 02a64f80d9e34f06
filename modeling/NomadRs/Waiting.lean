import NomadRs.BrokerOrder

/-!
# Waiting in the evaluation queue

A pending evaluation waits for those ahead of it and for those that are inserted later with a
higher priority, and for no others. `overtaken_exactly` counts: the evaluation is delivered right
after as many deliveries as it had entries ahead of it and higher insertions since. No run of
insertions of its own priority or below, redeliveries included, can hold it up.
-/

namespace NomadRs

namespace EvalQueue

/-- The pending evaluations that are delivered before `pe`. -/
def ahead (q : EvalQueue) (pe : PendingEval) : ℕ :=
  q.heap.countP fun other => (other.cmp pe).isGT

/-- The insertions of a priority above `p` on the way from `q` to `q'`. -/
def arrivals (p : Int) (q q' : EvalQueue) : ℕ :=
  q'.heap.countP fun pe => q.nextSeq ≤ pe.seq ∧ p < pe.priority

theorem ahead_eq (q : EvalQueue) (pe : PendingEval) :
    q.ahead pe = StableQueue.ahead PendingEval.priority PendingEval.seq pe q.heap := by
  rw [ahead, StableQueue.ahead, PendingEval.cmp_eq_stampCmp]

/-- `q'` has more pending entries than `q`, all of them later. -/
def Grows (q q' : EvalQueue) : Prop :=
  q.nextSeq ≤ q'.nextSeq ∧ ∃ new, q'.heap = new ++ q.heap ∧ ∀ pe ∈ new, q.nextSeq ≤ pe.seq

variable {q q' q'' : EvalQueue}

theorem Grows.of_heap (hheap : q'.heap = q.heap) (hseq : q'.nextSeq = q.nextSeq) : q.Grows q' :=
  ⟨hseq.ge, [], hheap, by simp⟩

theorem Grows.trans (h : q.Grows q') (h' : q'.Grows q'') : q.Grows q'' := by
  obtain ⟨hseq, new, hheap, hnew⟩ := h
  obtain ⟨hseq', new', hheap', hnew'⟩ := h'
  refine ⟨hseq.trans hseq', new' ++ new, by rw [hheap', hheap, List.append_assoc], ?_⟩
  rw [List.forall_mem_append]
  exact ⟨fun pe hpe => hseq.trans (hnew' pe hpe), hnew⟩

theorem grows_push (q : EvalQueue) (eval : Evaluation) (dequeues : Nat) :
    q.Grows (q.push eval dequeues) :=
  ⟨Nat.le_succ _, [⟨q.nextSeq, eval, dequeues, none⟩], rfl, by simp⟩

theorem grows_nack (q : EvalQueue) (id : EvalId) : q.Grows (q.nack id) := by
  cases hpe : q.inFlight.lookup id with
  | none =>
      rw [nack_of_lookup_none hpe]
      exact .of_heap rfl rfl
  | some pe =>
      rw [nack_of_lookup_some hpe]
      have hack : q.Grows (q.ack id) := .of_heap rfl rfl
      split_ifs
      · exact hack.trans (grows_push _ _ _)
      · exact hack

theorem grows_foldl_nack (ids : List EvalId) (q : EvalQueue) : q.Grows (ids.foldl nack q) := by
  induction ids generalizing q with
  | nil => exact .of_heap rfl rfl
  | cons id ids ih => exact (q.grows_nack id).trans (ih _)

theorem grows_foldl_push (es : List Evaluation) (q : EvalQueue) :
    q.Grows (es.foldl (fun q e => q.push e 0) q) := by
  induction es generalizing q with
  | nil => exact .of_heap rfl rfl
  | cons e es ih => exact (q.grows_push e 0).trans (ih _)

end EvalQueue

def QueueEvent.deliveries : QueueEvent → ℕ
  | .dequeue _ (some _) => 1
  | _ => 0

theorem QueueStep.grows {q q' : EvalQueue} {event : QueueEvent} (h : QueueStep q event q') :
    (event.deliveries = 0 ∧ q.Grows q') ∨
      ∃ now, event = .dequeue now (q.dequeue now).1 ∧ q' = (q.dequeue now).2 := by
  cases h with
  | enqueue eval => exact .inl ⟨rfl, q.grows_push eval 0⟩
  | dequeue now => exact .inr ⟨now, rfl, rfl⟩
  | nack id => exact .inl ⟨rfl, q.grows_nack id⟩
  | reapExpired clock timeout => exact .inl ⟨rfl, EvalQueue.grows_foldl_nack _ q⟩
  | unblockAll =>
      have hcleared : q.Grows { q with blocked := [] } := .of_heap rfl rfl
      exact .inl ⟨rfl, hcleared.trans (EvalQueue.grows_foldl_push _ _)⟩
  | _ => exact .inl ⟨rfl, .of_heap rfl rfl⟩

/-- A run of the queue from `q`: its events with the queue after each, and the number of its
deliveries and of its insertions of a priority above `p`. -/
inductive QueueRun (p : Int) (q : EvalQueue) :
    List (QueueEvent × EvalQueue) → EvalQueue → ℕ → ℕ → Prop
  | refl : QueueRun p q [] q 0 0
  | step {steps : List (QueueEvent × EvalQueue)} {q₁ q₂ : EvalQueue} {event : QueueEvent}
      {d k : ℕ} : QueueRun p q steps q₁ d k → QueueStep q₁ event q₂ →
      QueueRun p q (steps ++ [(event, q₂)]) q₂ (d + event.deliveries) (k + q₁.arrivals p q₂)

theorem EvalQueue.Grows.ahead {q q' : EvalQueue} (h : q.Grows q')
    (hfresh : ∀ pe ∈ q.heap, pe.seq < q.nextSeq) {pe : PendingEval} (hpe : pe ∈ q.heap) :
    pe ∈ q'.heap ∧ q'.ahead pe = q.ahead pe + q.arrivals pe.priority q' := by
  obtain ⟨_, new, hheap, hnew⟩ := h
  have hlater : ∀ b ∈ new, pe.seq < b.seq := fun b hb => (hfresh pe hpe).trans_le (hnew b hb)
  refine ⟨hheap ▸ List.mem_append_right new hpe, ?_⟩
  rw [EvalQueue.ahead_eq, EvalQueue.ahead_eq, hheap, StableQueue.ahead_append hlater, arrivals,
    hheap, List.countP_append]
  have hold : q.heap.countP (fun b => q.nextSeq ≤ b.seq ∧ pe.priority < b.priority) = 0 := by
    rw [List.countP_eq_zero]
    intro b hb
    simp [hfresh b hb]
  rw [hold, Nat.add_zero]
  congr 1
  exact List.countP_congr fun b hb => by simp [hnew b hb]

/-- A dequeue with `pe` pending delivers `pe` if nothing is ahead of it, and else something that
was. -/
theorem EvalQueue.dequeue_ahead {q : EvalQueue} (hq : queueSystem.Reachable q) (now : Instant)
    {pe : PendingEval} (hpe : pe ∈ q.heap) :
    (q.ahead pe = 0 ∧ (q.dequeue now).1 = some pe.eval ∧ pe ∉ (q.dequeue now).2.heap) ∨
    (∃ eval, (q.dequeue now).1 = some eval) ∧ pe ∈ (q.dequeue now).2.heap ∧
      q.ahead pe = (q.dequeue now).2.ahead pe + 1 := by
  have hseqs := EvalQueue.nodup_seqs hq
  rcases q.dequeue_cases now with ⟨hempty, _⟩ | ⟨next, heap, hpop, hdeq⟩
  · rw [hempty] at hpe
    cases hpe
  · have hperm : q.heap.Perm (next :: heap) := popGreatest_perm hpop
    have hnodup := (hperm.map PendingEval.seq).nodup_iff.1 hseqs
    rw [PendingEval.cmp_eq_stampCmp] at hpop
    rw [hdeq]
    rcases List.mem_cons.1 (hperm.mem_iff.1 hpe) with rfl | hmem
    · refine .inl ⟨?_, rfl, fun hmem => ?_⟩
      · rw [EvalQueue.ahead_eq]
        exact StableQueue.ahead_popped hpop
      · exact (List.nodup_cons.1 hnodup).1 (List.mem_map_of_mem hmem)
    · refine .inr ⟨⟨_, rfl⟩, hmem, ?_⟩
      rw [EvalQueue.ahead_eq, EvalQueue.ahead_eq]
      exact StableQueue.ahead_pop hseqs hpop hmem

theorem EvalQueue.arrivals_dequeue {q : EvalQueue} (hfresh : ∀ pe ∈ q.heap, pe.seq < q.nextSeq)
    (now : Instant) (p : Int) : q.arrivals p (q.dequeue now).2 = 0 := by
  rw [arrivals, List.countP_eq_zero]
  rcases q.dequeue_cases now with ⟨_, hdeq⟩ | ⟨next, heap, hpop, hdeq⟩
  · rw [hdeq]
    intro pe hpe
    simp [hfresh pe hpe]
  · rw [hdeq]
    intro pe hpe
    have hmem : pe ∈ q.heap := (popGreatest_perm hpop).mem_iff.2 (List.mem_cons_of_mem _ hpe)
    simp [hfresh pe hmem]

theorem EvalQueue.fresh {q : EvalQueue} (hq : queueSystem.Reachable q) :
    ∀ pe ∈ q.heap, pe.seq < q.nextSeq := by
  obtain ⟨b, pend, hrep⟩ := Represents.of_reachable hq
  exact hrep.fresh

theorem QueueRun.reachable {p : Int} {q q' : EvalQueue} {steps : List (QueueEvent × EvalQueue)}
    {d k : ℕ} (h : QueueRun p q steps q' d k) (hq : queueSystem.Reachable q) :
    queueSystem.Reachable q' := by
  induction h with
  | refl => exact hq
  | step _ hstep ih => exact ih.next hstep

/-- In any run a pending evaluation is either pending still, with as many deliveries and entries
ahead of it as it began with and higher insertions have come, or a step of the run delivered it when
as many deliveries had been made as it began with entries ahead and higher insertions had come. -/
theorem overtaken_exactly {q q' : EvalQueue} (hq : queueSystem.Reachable q) {pe : PendingEval}
    (hpe : pe ∈ q.heap) {steps : List (QueueEvent × EvalQueue)} {d k : ℕ}
    (hrun : QueueRun pe.priority q steps q' d k) :
    (pe ∈ q'.heap ∧ d + q'.ahead pe = q.ahead pe + k) ∨
    ∃ before now q₂ after, steps = before ++ (.dequeue now (some pe.eval), q₂) :: after ∧
      ∃ q₁ d₁ k₁, QueueRun pe.priority q before q₁ d₁ k₁ ∧ d₁ = q.ahead pe + k₁ ∧ d₁ < d ∧
        k₁ ≤ k ∧ pe ∈ q₁.heap ∧ q₁.dequeue now = (some pe.eval, q₂) ∧ pe ∉ q₂.heap := by
  induction hrun with
  | refl => exact .inl ⟨hpe, Nat.add_comm _ _⟩
  | @step steps q₁ q₂ event d k hrun hstep ih =>
      have hq₁ := hrun.reachable hq
      rcases ih with ⟨hmem, hcount⟩ | ⟨before, now, q₃, after, rfl, q₀, d₀, k₀,
        hrun₀, heq, hd, hk, hdelivered⟩
      · rcases hstep.grows with ⟨hzero, hgrows⟩ | ⟨now, hevent, hq₂⟩
        · obtain ⟨hmem₂, hahead⟩ := hgrows.ahead (EvalQueue.fresh hq₁) hmem
          exact .inl ⟨hmem₂, by omega⟩
        · have hnone := EvalQueue.arrivals_dequeue (EvalQueue.fresh hq₁) now pe.priority
          rcases EvalQueue.dequeue_ahead hq₁ now hmem with
            ⟨hzero, hanswer, hgone⟩ | ⟨⟨eval, hanswer⟩, hstays, hahead⟩
          · rw [hanswer] at hevent
            rw [← hq₂] at hgone
            refine .inr ⟨steps, now, q₂, [], by rw [hevent], q₁, d, k, hrun, by omega, ?_,
              Nat.le_add_right _ _, hmem, Prod.ext hanswer hq₂.symm, hgone⟩
            rw [hevent]
            exact Nat.lt_succ_self d
          · have hone : event.deliveries = 1 := by rw [hevent, hanswer]; rfl
            rw [← hq₂] at hstays hahead hnone
            exact .inl ⟨hstays, by omega⟩
      · exact .inr ⟨before, now, q₃, after ++ [(event, q₂)], by simp, q₀, d₀, k₀, hrun₀, heq,
          by omega, by omega, hdelivered⟩

def backlog : EvalQueue := (EvalQueue.new.enqueue (webEval "a")).enqueue (webEval "b")

theorem overtaken_exactly_web : ∃ before now q₂ after,
    [(.dequeue 0 (some (webEval "a")), (backlog.dequeue 0).2),
      (.dequeue 0 (some (webEval "b")), ((backlog.dequeue 0).2.dequeue 0).2)] =
        before ++ (QueueEvent.dequeue now (some (webEval "b")), q₂) :: after ∧
      ∃ q₁, QueueRun 50 backlog before q₁ 1 0 := by
  have hq : queueSystem.Reachable backlog :=
    .next (.next (.start rfl) (.enqueue (webEval "a"))) (.enqueue (webEval "b"))
  have hrun : QueueRun 50 backlog [(.dequeue 0 (some (webEval "a")), (backlog.dequeue 0).2),
      (.dequeue 0 (some (webEval "b")), ((backlog.dequeue 0).2.dequeue 0).2)] _ 2 0 :=
    .step (.step .refl (.dequeue 0)) (.dequeue 0)
  have hsecond : (⟨1, webEval "b", 0, none⟩ : PendingEval) ∈ backlog.heap := by decide
  have hahead : backlog.ahead ⟨1, webEval "b", 0, none⟩ = 1 := by decide
  have hgone : (⟨1, webEval "b", 0, none⟩ : PendingEval) ∉
      ((backlog.dequeue 0).2.dequeue 0).2.heap := by decide
  rcases overtaken_exactly hq hsecond hrun with
    ⟨hmem, _⟩ | ⟨before, now, q₂, after, hsplit, q₁, d₁, k₁, hrun₁, heq, _, hk, _⟩
  · exact absurd hmem hgone
  · obtain rfl : k₁ = 0 := Nat.le_zero.1 hk
    obtain rfl : d₁ = 1 := by omega
    exact ⟨before, now, q₂, after, hsplit, q₁, hrun₁⟩

end NomadRs
