import NomadRs.EvalQueue

/-!
# The queue refines a stable priority broker

`Broker` lists the pending evaluations by the age of their latest insertion, keeps the in-flight
ones as a partial map and the blocked ones in blocking order; it has no sequence numbers and no
heap. `Represents` ties a queue to the broker it implements, and `queue_simulates_broker` matches
every operation, answers included. `Broker.Step` is therefore the specification of delivery order:
a dequeue answers with the first of the pending evaluations of highest priority.
-/

namespace NomadRs

/-- An evaluation with its delivery count and, in flight, the time of its delivery. -/
structure Item where
  eval : Evaluation
  dequeues : Nat
  dequeuedAt : Option Instant

def Item.priority (item : Item) : Int := item.eval.priority

def PendingEval.item (pe : PendingEval) : Item := ⟨pe.eval, pe.dequeues, pe.dequeuedAt⟩

/-- Pending evaluations by age of insertion, in-flight ones by id, blocked ones in order. -/
structure Broker where
  pending : List Item := []
  inFlight : EvalId → Option Item := fun _ => none
  blocked : List Evaluation := []

namespace Broker

def insert (b : Broker) (eval : Evaluation) (dequeues : Nat) : Broker :=
  { b with pending := b.pending ++ [⟨eval, dequeues, none⟩] }

def release (b : Broker) (id : EvalId) : Broker :=
  { b with inFlight := Function.update b.inFlight id none }

/-- Take a delivery back: insert it again unless it was the last one allowed. -/
def takeBack (b : Broker) (id : EvalId) : Broker :=
  match b.inFlight id with
  | none => b
  | some item =>
    if item.dequeues < maxDequeue then (b.release id).insert item.eval item.dequeues
    else b.release id

def Expired (b : Broker) (clock : EvalId → Instant) (timeout : Duration) (ids : List EvalId) :
    Prop :=
  ids.Nodup ∧ ∀ id, id ∈ ids ↔ ∃ item, b.inFlight id = some item ∧
    EvalQueue.expired item.dequeuedAt (clock id) timeout = true

inductive Step (b : Broker) : QueueEvent → Broker → Prop
  | enqueue (eval : Evaluation) : Step b (.enqueue eval) (b.insert eval 0)
  | dequeueNone (now : Instant) : b.pending = [] → Step b (.dequeue now none) b
  | dequeue (now : Instant) (item : Item) (pending : List Item) :
      StableQueue.Dequeue Item.priority b.pending (some item) pending →
      Step b (.dequeue now (some item.eval)) { b with
        pending
        inFlight := Function.update b.inFlight item.eval.id
          (some ⟨item.eval, item.dequeues + 1, some now⟩) }
  | ack (id : EvalId) : Step b (.ack id) (b.release id)
  | nack (id : EvalId) : Step b (.nack id) (b.takeBack id)
  | reapExpired (clock : EvalId → Instant) (timeout : Duration) (ids : List EvalId) :
      b.Expired clock timeout ids →
      Step b (.reapExpired clock timeout) (ids.foldl takeBack b)
  | block (eval : Evaluation) : Step b (.block eval) { b with blocked := b.blocked ++ [eval] }
  | unblockAll : Step b .unblockAll { b with
      pending := b.pending ++ b.blocked.map fun eval => ⟨eval, 0, none⟩
      blocked := [] }
  | relayout : Step b .relayout b

def system : System Broker QueueEvent where
  start b := b = {}
  step := Step

end Broker

/-! ## The simulation relation -/

/-- `pend` lists the heap of the queue in the order of the broker's pending list. -/
structure Represents (q : EvalQueue) (b : Broker) (pend : List PendingEval) : Prop where
  stamped : StableQueue.Stamped PendingEval.seq q.heap pend
  fresh : ∀ pe ∈ q.heap, pe.seq < q.nextSeq
  pending : b.pending = pend.map PendingEval.item
  inFlight : ∀ id, b.inFlight id = (q.inFlight.lookup id).map PendingEval.item
  blocked : b.blocked = q.blocked

namespace Represents
variable {q : EvalQueue} {b : Broker} {pend : List PendingEval}

theorem new : Represents .new {} [] := ⟨.nil, by simp [EvalQueue.new], rfl, fun _ => rfl, rfl⟩

theorem push (h : Represents q b pend) (eval : Evaluation) (dequeues : Nat) :
    Represents (q.push eval dequeues) (b.insert eval dequeues)
      (pend ++ [⟨q.nextSeq, eval, dequeues, none⟩]) where
  stamped := h.stamped.push h.fresh
  fresh := by
    refine List.forall_mem_cons.2 ⟨Nat.lt_succ_self _, fun pe hpe => ?_⟩
    exact (h.fresh pe hpe).trans (Nat.lt_succ_self _)
  pending := by simp [Broker.insert, h.pending, PendingEval.item]
  inFlight := h.inFlight
  blocked := h.blocked

theorem ack (h : Represents q b pend) (id : EvalId) :
    Represents (q.ack id) (b.release id) pend where
  stamped := h.stamped
  fresh := h.fresh
  pending := h.pending
  inFlight k := by
    by_cases hk : k = id
    · subst hk
      simp [Broker.release, EvalQueue.ack]
    · simp [Broker.release, EvalQueue.ack, hk, AList.lookup_erase_ne hk, h.inFlight]
  blocked := h.blocked

theorem nack (h : Represents q b pend) (id : EvalId) :
    ∃ pend', Represents (q.nack id) (b.takeBack id) pend' := by
  have hid := h.inFlight id
  cases hpe : q.inFlight.lookup id with
  | none =>
      rw [hpe, Option.map_none] at hid
      rw [EvalQueue.nack_of_lookup_none hpe, Broker.takeBack, hid]
      exact ⟨pend, h⟩
  | some pe =>
      rw [hpe, Option.map_some] at hid
      rw [EvalQueue.nack_of_lookup_some hpe, Broker.takeBack, hid]
      change ∃ pend', Represents _ (if pe.dequeues < maxDequeue then
        (b.release id).insert pe.eval pe.dequeues else b.release id) pend'
      by_cases hlt : pe.dequeues < maxDequeue
      · rw [if_pos hlt, if_pos hlt]
        exact ⟨_, (h.ack id).push pe.eval pe.dequeues⟩
      · rw [if_neg hlt, if_neg hlt]
        exact ⟨_, h.ack id⟩

theorem foldl_nack (ids : List EvalId) (h : Represents q b pend) :
    ∃ pend', Represents (ids.foldl EvalQueue.nack q) (ids.foldl Broker.takeBack b) pend' := by
  induction ids generalizing q b pend with
  | nil => exact ⟨pend, h⟩
  | cons id ids ih =>
      obtain ⟨pend', h'⟩ := h.nack id
      exact ih h'

theorem foldl_push (es : List Evaluation) (h : Represents q b pend) :
    ∃ pend', Represents (es.foldl (fun q e => q.push e 0) q)
      { b with pending := b.pending ++ es.map fun eval => ⟨eval, 0, none⟩ } pend' := by
  induction es generalizing q b pend with
  | nil => exact ⟨pend, by simpa using h⟩
  | cons e es ih =>
      obtain ⟨pend', h'⟩ := ih (h.push e 0)
      refine ⟨pend', ?_⟩
      rw [List.foldl_cons, List.map_cons, List.append_cons]
      exact h'

theorem expired (h : Represents q b pend) (clock : EvalId → Instant) (timeout : Duration) :
    b.Expired clock timeout (q.expiredIds clock timeout) := by
  refine ⟨q.nodup_expiredIds clock timeout, fun id => ?_⟩
  rw [EvalQueue.mem_expiredIds]
  constructor
  · rintro ⟨pe, hpe, hexp⟩
    exact ⟨pe.item, by rw [h.inFlight, hpe, Option.map_some], hexp⟩
  · rintro ⟨item, hitem, hexp⟩
    rw [h.inFlight] at hitem
    obtain ⟨pe, hpe, rfl⟩ := Option.map_eq_some_iff.1 hitem
    exact ⟨pe, hpe, hexp⟩

theorem dequeue (h : Represents q b pend) (now : Instant) :
    ∃ b' pend', b.Step (.dequeue now (q.dequeue now).1) b' ∧
      Represents (q.dequeue now).2 b' pend' := by
  rcases q.dequeue_cases now with ⟨hempty, hq⟩ | ⟨pe, heap, hpop, hq⟩
  · rw [hq]
    have hnil : pend = [] := by
      have hperm := h.stamped.perm
      rw [hempty] at hperm
      exact hperm.nil_eq.symm
    refine ⟨b, pend, .dequeueNone now ?_, h⟩
    rw [h.pending, hnil, List.map_nil]
  · rw [hq]
    have hperm : q.heap.Perm (pe :: heap) := popGreatest_perm hpop
    rw [PendingEval.cmp_eq_stampCmp] at hpop
    obtain ⟨pend', hdeq, hst⟩ := h.stamped.pop hpop
    have hdeq' : StableQueue.Dequeue Item.priority b.pending (some pe.item)
        (pend'.map PendingEval.item) := by
      rw [h.pending]
      change StableQueue.Dequeue (Item.priority ∘ PendingEval.item) pend (some pe) pend' at hdeq
      exact hdeq.map PendingEval.item
    refine ⟨_, pend', .dequeue now pe.item _ hdeq', hst, ?_, rfl, ?_, h.blocked⟩
    · intro pe' hpe'
      exact h.fresh pe' (hperm.mem_iff.2 (List.mem_cons_of_mem _ hpe'))
    · intro id
      change Function.update b.inFlight pe.eval.id _ id = _
      by_cases hid : id = pe.eval.id
      · subst hid
        rw [Function.update_self, AList.lookup_insert]
        rfl
      · rw [Function.update_of_ne hid, AList.lookup_insert_ne hid, h.inFlight]

end Represents

/-- Every operation of the queue is the broker's, with the same answer. -/
theorem queue_simulates_broker : System.Simulates queueSystem Broker.system fun q b =>
    ∃ pend, Represents q b pend where
  start := by
    rintro _ rfl
    exact ⟨{}, rfl, [], .new⟩
  step := by
    rintro q b event q' ⟨pend, h⟩ hstep
    cases hstep with
    | enqueue eval => exact ⟨_, .enqueue eval, _, h.push eval 0⟩
    | dequeue now =>
        obtain ⟨b', pend', hb, h'⟩ := h.dequeue now
        exact ⟨b', hb, pend', h'⟩
    | ack id => exact ⟨_, .ack id, pend, h.ack id⟩
    | nack id => exact ⟨_, .nack id, h.nack id⟩
    | reapExpired clock timeout =>
        exact ⟨_, .reapExpired clock timeout _ (h.expired clock timeout), h.foldl_nack _⟩
    | block eval =>
        refine ⟨_, .block eval, pend, h.stamped, h.fresh, h.pending, h.inFlight, ?_⟩
        simp [EvalQueue.block, h.blocked]
    | unblockAll =>
        refine ⟨_, .unblockAll, ?_⟩
        have h' : Represents { q with blocked := [] } { b with blocked := [] } pend :=
          ⟨h.stamped, h.fresh, h.pending, h.inFlight, rfl⟩
        rw [h.blocked]
        exact h'.foldl_push q.blocked
    | relayout inFlight hr =>
        refine ⟨b, .relayout, pend, h.stamped, h.fresh, h.pending, fun id => ?_, h.blocked⟩
        rw [h.inFlight, hr.lookup_eq]

theorem Represents.of_reachable {q : EvalQueue} (h : queueSystem.Reachable q) :
    ∃ b pend, Represents q b pend := by
  refine h.invariant (fun q => ∃ b pend, Represents q b pend) ?_ fun q event q' hq _ hstep => ?_
  · rintro _ rfl
    exact ⟨_, _, .new⟩
  · obtain ⟨b, hpend⟩ := hq
    obtain ⟨b', _, hrep⟩ := queue_simulates_broker.step q b event q' hpend hstep
    exact ⟨b', hrep⟩

theorem EvalQueue.nodup_seqs {q : EvalQueue} (h : queueSystem.Reachable q) :
    (q.heap.map PendingEval.seq).Nodup := by
  obtain ⟨b, pend, hrep⟩ := Represents.of_reachable h
  refine (hrep.stamped.perm.map _).nodup_iff.2 (List.pairwise_map.2 ?_)
  exact hrep.stamped.increasing.imp fun hlt => hlt.ne

theorem Represents.dequeue_answer {q : EvalQueue} {b : Broker} {pend : List PendingEval}
    (h : Represents q b pend) (now : Instant) :
    ((q.dequeue now).1 = none ↔ b.pending = []) ∧
      ∀ eval, (q.dequeue now).1 = some eval → ∃ l₁ item l₂,
        b.pending = l₁ ++ item :: l₂ ∧ item.eval = eval ∧
          (∀ other ∈ l₁, other.priority < eval.priority) ∧
          ∀ other ∈ l₂, other.priority ≤ eval.priority := by
  obtain ⟨b', _, hstep, _⟩ := h.dequeue now
  generalize (q.dequeue now).1 = answer at hstep
  cases hstep with
  | dequeueNone _ hnil => exact ⟨by simp [hnil], by simp⟩
  | dequeue _ item pending hdeq =>
      generalize b.pending = before at hdeq
      cases hdeq with
      | first l₁ _ l₂ h₁ h₂ =>
          refine ⟨by simp, fun eval heval => ⟨l₁, item, l₂, rfl, ?_⟩⟩
          cases heval
          exact ⟨rfl, h₁, h₂⟩

/-- Whatever operations led to a queue, it implements a broker that took the same ones; its next
dequeue answers `none` exactly when nothing is pending, and otherwise with the oldest insertion of
the highest priority. -/
theorem dequeue_stable {events : List QueueEvent} {q : EvalQueue}
    (h : queueSystem.Trace events q) :
    ∃ b, Broker.system.Trace events b ∧ (∃ pend, Represents q b pend) ∧ ∀ now,
      ((q.dequeue now).1 = none ↔ b.pending = []) ∧
        ∀ eval, (q.dequeue now).1 = some eval → ∃ l₁ item l₂,
          b.pending = l₁ ++ item :: l₂ ∧ item.eval = eval ∧
            (∀ other ∈ l₁, other.priority < eval.priority) ∧
            ∀ other ∈ l₂, other.priority ≤ eval.priority := by
  obtain ⟨b, hb, pend, hrep⟩ := queue_simulates_broker.trace h
  exact ⟨b, hb, ⟨pend, hrep⟩, hrep.dequeue_answer⟩

/-- Two evaluations of one priority, the first of them delivered and given back. -/
def givenBack : EvalQueue :=
  (((EvalQueue.new.enqueue (webEval "a")).enqueue (webEval "b")).dequeue 0).2.nack "a"

theorem givenBack_trace : queueSystem.Trace
    ([.enqueue (webEval "a"), .enqueue (webEval "b")] ++ [.dequeue 0 (some (webEval "a"))] ++
      [.nack "a"]) givenBack := by
  have hab : queueSystem.Trace ([] ++ [.enqueue (webEval "a")] ++ [.enqueue (webEval "b")])
      ((EvalQueue.new.enqueue (webEval "a")).enqueue (webEval "b")) :=
    .step (.step (.start rfl) (.enqueue _)) (.enqueue _)
  exact .step (.step hab (.dequeue 0)) (.nack "a")

theorem dequeue_stable_givenBack : (givenBack.dequeue 0).1 = some (webEval "b") ∧
    ∃ l₁ item l₂ b, Broker.pending b = l₁ ++ item :: l₂ ∧ item.eval = webEval "b" ∧
      (∀ other ∈ l₁, other.priority < 50) ∧ ∀ other ∈ l₂, other.priority ≤ 50 := by
  have hanswer : (givenBack.dequeue 0).1 = some (webEval "b") := by decide
  obtain ⟨b, _, _, hb⟩ := dequeue_stable givenBack_trace
  obtain ⟨l₁, item, l₂, hpending⟩ := (hb 0).2 _ hanswer
  exact ⟨hanswer, l₁, item, l₂, b, hpending⟩

end NomadRs
