import NomadRs.HeldIds

/-!
# Answers that come too late

Workers dequeue, and answer each delivery with an ack or a nack; a reap may take a delivery back
in between. The queue keys the evaluations in flight by id alone, so an answer cannot say which
delivery it is for. `late_answers_harmless` is about the runs in which no late answer meets the
evaluation in flight again: there every outstanding delivery is exclusive. `late_answer_disturbs`
is a run of two workers outside of this condition.
-/

namespace NomadRs

inductive DeliveryStatus
  | outstanding | reaped | answered
  deriving DecidableEq

/-- One answer of `dequeue`, with the worker that got it. -/
structure Delivery where
  worker : ℕ
  evalId : EvalId
  status : DeliveryStatus
  deriving DecidableEq

structure Deliveries where
  queue : EvalQueue := .new
  log : List Delivery := []

/-- An expired evaluation in flight takes its delivery back. -/
def Delivery.reap (ids : List EvalId) (d : Delivery) : Delivery :=
  if d.status = .outstanding ∧ d.evalId ∈ ids then { d with status := .reaped } else d

inductive DeliveryEvent
  | enqueue (eval : Evaluation)
  | dequeue (worker : ℕ) (now : Instant)
  | ack (i : ℕ)
  | nack (i : ℕ)
  | reapExpired (clock : EvalId → Instant) (timeout : Duration)
  | relayout

/-- An answer names one of the worker's own deliveries by its place in the log. -/
inductive DeliveryStep (s : Deliveries) : DeliveryEvent → Deliveries → Prop
  | enqueue (eval : Evaluation) : eval.id ∉ s.queue.held →
      DeliveryStep s (.enqueue eval) { s with queue := s.queue.enqueue eval }
  | dequeueNone (worker : ℕ) (now : Instant) : (s.queue.dequeue now).1 = none →
      DeliveryStep s (.dequeue worker now) { s with queue := (s.queue.dequeue now).2 }
  | dequeue (worker : ℕ) (now : Instant) (eval : Evaluation) :
      (s.queue.dequeue now).1 = some eval → DeliveryStep s (.dequeue worker now)
        ⟨(s.queue.dequeue now).2, s.log ++ [⟨worker, eval.id, .outstanding⟩]⟩
  | ack (i : ℕ) (d : Delivery) : s.log[i]? = some d → DeliveryStep s (.ack i)
      ⟨s.queue.ack d.evalId, s.log.set i { d with status := .answered }⟩
  | nack (i : ℕ) (d : Delivery) : s.log[i]? = some d → DeliveryStep s (.nack i)
      ⟨s.queue.nack d.evalId, s.log.set i { d with status := .answered }⟩
  | reapExpired (clock : EvalId → Instant) (timeout : Duration) :
      DeliveryStep s (.reapExpired clock timeout)
        ⟨(s.queue.reapExpired clock timeout).2,
          s.log.map (Delivery.reap (s.queue.expiredIds clock timeout))⟩
  | relayout (inFlight : HashMap EvalId PendingEval) : s.queue.inFlight.Relayout inFlight →
      DeliveryStep s .relayout { s with queue := { s.queue with inFlight } }

def delivering : System Deliveries DeliveryEvent where
  start s := s = {}
  step := DeliveryStep

/-- An answer to a delivery that is no longer outstanding finds nothing in flight under its id. -/
def AnswersInTime (s : Deliveries) : DeliveryEvent → Prop
  | .ack i | .nack i => ∀ d, s.log[i]? = some d → d.status ≠ .outstanding →
      s.queue.inFlight.lookup d.evalId = none
  | _ => True

namespace Deliveries

/-- Delivery `i` is of `id` and neither answered nor reaped. -/
def Outstanding (s : Deliveries) (i : ℕ) (id : EvalId) : Prop :=
  ∃ d, s.log[i]? = some d ∧ d.evalId = id ∧ d.status = .outstanding

/-- While a delivery is outstanding, its evaluation is not pending and nobody else has it. -/
def Exclusive (s : Deliveries) : Prop :=
  ∀ i id, s.Outstanding i id →
    (∀ pe ∈ s.queue.heap, pe.eval.id ≠ id) ∧ ∀ j, s.Outstanding j id → j = i

def LateAnswersIgnored (s : Deliveries) : Prop :=
  ∀ (i : ℕ) (d : Delivery), s.log[i]? = some d → d.status = .reaped →
    s.queue.ack d.evalId = s.queue ∧ s.queue.nack d.evalId = s.queue

/-! ## The invariant -/

structure Owned (s : Deliveries) : Prop where
  counted : ∃ d, Counted s.queue d
  inFlight : ∀ i id, s.Outstanding i id → ∃ pe, s.queue.inFlight.lookup id = some pe
  unique : ∀ i j id, s.Outstanding i id → s.Outstanding j id → i = j

variable {s s' : Deliveries} {i j : ℕ} {id : EvalId}

theorem Owned.new : Owned {} := by
  refine ⟨⟨_, .new fun _ => 0⟩, ?_, ?_⟩
  · rintro i id ⟨d, hd, _⟩
    simp at hd
  · rintro i j id ⟨d, hd, _⟩
    simp at hd

theorem outstanding_append {d : Delivery} {q : EvalQueue}
    (h : Outstanding ⟨q, s.log ++ [d]⟩ i id) :
    s.Outstanding i id ∨ (i = s.log.length ∧ d.evalId = id) := by
  obtain ⟨d', hd', hid, hst⟩ := h
  rcases Nat.lt_or_ge i s.log.length with hlt | hge
  · rw [List.getElem?_append_left hlt] at hd'
    exact .inl ⟨d', hd', hid, hst⟩
  · rw [List.getElem?_append_right hge, List.getElem?_singleton] at hd'
    split at hd'
    · cases hd'
      exact .inr ⟨by omega, hid⟩
    · cases hd'

theorem outstanding_set {d : Delivery} {q : EvalQueue}
    (h : Outstanding ⟨q, s.log.set j { d with status := .answered }⟩ i id) :
    i ≠ j ∧ s.Outstanding i id := by
  obtain ⟨d', hd', hid, hst⟩ := h
  rw [List.getElem?_set] at hd'
  by_cases hij : j = i
  · rw [if_pos hij] at hd'
    split at hd'
    · cases hd'
      cases hst
    · cases hd'
  · rw [if_neg hij] at hd'
    exact ⟨fun he => hij he.symm, d', hd', hid, hst⟩

theorem outstanding_reap {ids : List EvalId} {q : EvalQueue}
    (h : Outstanding ⟨q, s.log.map (Delivery.reap ids)⟩ i id) :
    s.Outstanding i id ∧ id ∉ ids := by
  obtain ⟨d', hd', hid, hst⟩ := h
  rw [List.getElem?_map] at hd'
  obtain ⟨d, hd, rfl⟩ := Option.map_eq_some_iff.1 hd'
  unfold Delivery.reap at hid hst
  split at hst
  next => cases hst
  next hnot =>
    rw [if_neg hnot] at hid
    exact ⟨⟨d, hd, hid, hst⟩, fun hmem => hnot ⟨hst, hid ▸ hmem⟩⟩

end Deliveries

namespace EvalQueue
variable {q : EvalQueue} {id k : EvalId}

theorem lookup_nack_ne (h : k ≠ id) : (q.nack id).inFlight.lookup k = q.inFlight.lookup k := by
  cases hpe : q.inFlight.lookup id with
  | none => rw [nack_of_lookup_none hpe]
  | some pe =>
      have hack : (q.ack id).inFlight.lookup k = q.inFlight.lookup k := AList.lookup_erase_ne h
      rw [nack_of_lookup_some hpe]
      split
      · exact hack
      · exact hack

theorem lookup_foldl_nack {ids : List EvalId} (h : k ∉ ids) :
    (ids.foldl nack q).inFlight.lookup k = q.inFlight.lookup k := by
  induction ids generalizing q with
  | nil => rfl
  | cons id ids ih =>
      rw [List.mem_cons, not_or] at h
      rw [List.foldl_cons, ih h.2, lookup_nack_ne h.1]

theorem ack_eq_self : q.ack id = q ↔ q.inFlight.lookup id = none := by
  refine ⟨fun h => ?_, ack_of_lookup_none⟩
  rw [← h]
  exact AList.lookup_erase _ _

theorem nack_eq_self : q.nack id = q ↔ q.inFlight.lookup id = none := by
  refine ⟨fun h => ?_, nack_of_lookup_none⟩
  cases hpe : q.inFlight.lookup id with
  | none => rfl
  | some pe =>
      have hgone : (q.nack id).inFlight.lookup id = none := by
        rw [nack_of_lookup_some hpe]
        split
        · exact AList.lookup_erase _ _
        · exact AList.lookup_erase _ _
      rw [h, hpe] at hgone
      cases hgone

end EvalQueue

namespace Deliveries
variable {s s' : Deliveries} {event : DeliveryEvent}

theorem Owned.answer (h : s.Owned) {i : ℕ} {d : Delivery} (hd : s.log[i]? = some d) {q : EvalQueue}
    (hcount : ∃ d, Counted q d)
    (hframe : ∀ k, k ≠ d.evalId → q.inFlight.lookup k = s.queue.inFlight.lookup k)
    (htime : d.status ≠ .outstanding → q = s.queue) :
    Owned ⟨q, s.log.set i { d with status := .answered }⟩ := by
  refine ⟨hcount, ?_, ?_⟩
  · intro j id hj
    obtain ⟨hne, hj⟩ := outstanding_set hj
    obtain ⟨pe, hpe⟩ := h.inFlight j id hj
    refine ⟨pe, ?_⟩
    by_cases hst : d.status = .outstanding
    · have hid : id ≠ d.evalId := by
        rintro rfl
        exact hne (h.unique j i _ hj ⟨d, hd, rfl, hst⟩)
      exact (hframe id hid).trans hpe
    · rw [htime hst]
      exact hpe
  · intro j k id hj hk
    exact h.unique j k id (outstanding_set hj).2 (outstanding_set hk).2

theorem Owned.step (h : s.Owned) (hguard : AnswersInTime s event)
    (hstep : DeliveryStep s event s') : s'.Owned := by
  obtain ⟨d, hcount⟩ := h.counted
  cases hstep with
  | enqueue eval hfresh =>
      exact ⟨⟨_, hcount.enqueue hfresh⟩, h.inFlight, h.unique⟩
  | dequeueNone worker now hnone =>
      rcases s.queue.dequeue_cases now with ⟨_, hq⟩ | ⟨pe, heap, _, hq⟩
      · rw [hq]
        exact h
      · rw [hq] at hnone
        cases hnone
  | dequeue worker now eval hsome =>
      obtain ⟨_, hcount', _⟩ := hcount.dequeue now
      rcases s.queue.dequeue_cases now with ⟨_, hq⟩ | ⟨pe, heap, hpop, hq⟩
      · rw [hq] at hsome
        cases hsome
      rw [hq] at hsome hcount' ⊢
      cases hsome
      have hnew {i : ℕ} (hi : s.Outstanding i pe.eval.id) : False := by
        obtain ⟨pe', hpe'⟩ := h.inFlight i _ hi
        have hmem : pe ∈ s.queue.heap := (popGreatest_perm hpop).mem_iff.2 List.mem_cons_self
        rw [hcount.lookup_eq_none_of_pending hmem] at hpe'
        cases hpe'
      refine ⟨⟨_, hcount'⟩, ?_, ?_⟩
      · intro i id hi
        rcases outstanding_append hi with hi | ⟨_, rfl⟩
        · obtain ⟨pe', hpe'⟩ := h.inFlight i id hi
          have hne : id ≠ pe.eval.id := by
            rintro rfl
            exact hnew hi
          exact ⟨pe', by rw [AList.lookup_insert_ne hne, hpe']⟩
        · exact ⟨_, AList.lookup_insert _⟩
      · intro i j id hi hj
        rcases outstanding_append hi with hi | ⟨hilen, rfl⟩
        · rcases outstanding_append hj with hj | ⟨_, rfl⟩
          · exact h.unique i j id hi hj
          · exact (hnew hi).elim
        · rcases outstanding_append hj with hj | ⟨hjlen, _⟩
          · exact (hnew hj).elim
          · rw [hilen, hjlen]
  | ack i d' hd =>
      refine h.answer hd ⟨d, hcount.ack _⟩ (fun k hk => AList.lookup_erase_ne hk) fun hst => ?_
      exact EvalQueue.ack_of_lookup_none (hguard d' hd hst)
  | nack i d' hd =>
      refine h.answer hd ⟨d, (hcount.nack _).1⟩ (fun k hk => EvalQueue.lookup_nack_ne hk)
        fun hst => ?_
      exact EvalQueue.nack_of_lookup_none (hguard d' hd hst)
  | reapExpired clock timeout =>
      refine ⟨⟨d, (hcount.foldl_nack _).1⟩, ?_, ?_⟩
      · intro i id hi
        obtain ⟨hi, hnot⟩ := outstanding_reap hi
        obtain ⟨pe, hpe⟩ := h.inFlight i id hi
        exact ⟨pe, (EvalQueue.lookup_foldl_nack hnot).trans hpe⟩
      · intro i j id hi hj
        exact h.unique i j id (outstanding_reap hi).1 (outstanding_reap hj).1
  | relayout m hm =>
      refine ⟨⟨d, hcount.relayout hm⟩, fun i id hi => ?_, h.unique⟩
      obtain ⟨pe, hpe⟩ := h.inFlight i id hi
      exact ⟨pe, (hm.lookup_eq id).symm.trans hpe⟩

theorem Owned.exclusive (h : s.Owned) : s.Exclusive := by
  intro i id hi
  obtain ⟨d, hcount⟩ := h.counted
  obtain ⟨pe, hpe⟩ := h.inFlight i id hi
  refine ⟨fun pe' hpe' heq => ?_, fun j hj => h.unique j i id hj hi⟩
  rw [← heq, hcount.lookup_eq_none_of_pending hpe'] at hpe
  cases hpe

/-- In a run without an answer that comes too late, an outstanding delivery is exclusive; and an
answer to a reaped delivery leaves the queue unchanged exactly as long as the evaluation is not
in flight again. -/
theorem late_answers_harmless (h : delivering.ReachableVia AnswersInTime s) :
    s.Exclusive ∧ ∀ i d, s.log[i]? = some d → d.status = .reaped →
      ((s.queue.ack d.evalId = s.queue ∧ s.queue.nack d.evalId = s.queue) ↔
        s.queue.inFlight.lookup d.evalId = none) ∧
      ∀ event s', (event = .ack i ∨ event = .nack i) → AnswersInTime s event →
        DeliveryStep s event s' → s'.queue = s.queue := by
  have hown : s.Owned := by
    refine h.invariant Owned ?_ fun _ _ _ hs hg hstep => hs.step hg hstep
    rintro _ rfl
    exact .new
  refine ⟨hown.exclusive, fun i d hd hst => ⟨?_, ?_⟩⟩
  · rw [EvalQueue.ack_eq_self, EvalQueue.nack_eq_self, and_self_iff]
  · rintro event s' (rfl | rfl) hguard hstep
    · have hnone := hguard d hd (by rw [hst]; decide)
      cases hstep with
      | ack _ d' hd' =>
          cases hd.symm.trans hd'
          exact EvalQueue.ack_of_lookup_none hnone
    · have hnone := hguard d hd (by rw [hst]; decide)
      cases hstep with
      | nack _ d' hd' =>
          cases hd.symm.trans hd'
          exact EvalQueue.nack_of_lookup_none hnone

/-! ## A worker that answers late -/

def lateWorker : Deliveries where
  queue := ((((EvalQueue.new.enqueue (webEval "a")).dequeue 0).2.reapExpired
    (fun _ => 60) 60).2.dequeue 60).2
  log := [⟨0, "a", .reaped⟩, ⟨1, "a", .outstanding⟩]

theorem lateWorker_reachable : delivering.ReachableVia AnswersInTime lateWorker := by
  have hfresh : (webEval "a").id ∉ EvalQueue.new.held := by decide
  have h₁ : delivering.ReachableVia AnswersInTime _ :=
    .next (.start rfl) (.enqueue (webEval "a") hfresh) trivial
  have h₂ := h₁.next (.dequeue 0 0 (webEval "a") (by decide)) trivial
  have h₃ := h₂.next (.reapExpired (fun _ => 60) 60) trivial
  exact h₃.next (.dequeue 1 60 (webEval "a") (by decide)) trivial

theorem late_answers_harmless_lateWorker :
    lateWorker.Exclusive ∧ lateWorker.Outstanding 1 "a" :=
  ⟨(late_answers_harmless lateWorker_reachable).1, _, rfl, rfl, rfl⟩

/-- Worker 0's late answer reaches worker 1's delivery: an ack removes it, and a nack makes the
evaluation pending while worker 1 still has it. -/
theorem late_answer_disturbs :
    (¬ ∀ s, delivering.Reachable s → s.LateAnswersIgnored) ∧
      ¬ ∀ s, delivering.Reachable s → s.Exclusive := by
  have hreach : delivering.Reachable lateWorker :=
    lateWorker_reachable.mono fun _ _ _ => trivial
  constructor
  · intro h
    have hack : lateWorker.queue.ack "a" = lateWorker.queue :=
      (h _ hreach 0 ⟨0, "a", .reaped⟩ rfl rfl).1
    exact absurd (EvalQueue.ack_eq_self.1 hack) (by decide)
  · intro h
    have hnack := hreach.next (.nack 0 ⟨0, "a", .reaped⟩ rfl)
    exact (h _ hnack 1 "a" ⟨_, rfl, rfl, rfl⟩).1 ⟨2, webEval "a", 2, none⟩ (by decide) rfl

end Deliveries
end NomadRs
