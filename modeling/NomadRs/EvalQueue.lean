import NomadRs.Entities
import NomadRs.StableQueue
import NomadRs.Transition

/-!
# The evaluation queue

The broker between request handlers and scheduler workers: a heap of pending evaluations, the
evaluations handed out to workers keyed by id, and the blocked ones. Every operation runs under
the queue's lock and is one atomic step; a poisoned lock is not modelled. Sequence numbers are
read exactly, and clock readings and timeouts are durations since a fixed origin.
-/

namespace NomadRs

abbrev Instant := Nat
abbrev Duration := Nat

/-- Deliveries of an evaluation before it is dropped instead of redelivered. -/
def maxDequeue : Nat := 3

structure PendingEval where
  seq : Nat
  eval : Evaluation
  dequeues : Nat
  dequeuedAt : Option Instant
  deriving DecidableEq

namespace PendingEval

/-- `Ord for PendingEval`: higher priority first, then the older sequence number. -/
def cmp (self other : PendingEval) : Ordering :=
  match compare self.eval.priority other.eval.priority with
  | .eq => compare other.seq self.seq
  | order => order

def priority (self : PendingEval) : Int := self.eval.priority

theorem cmp_eq_stampCmp : cmp = StableQueue.stampCmp priority seq := by
  funext self other
  simp only [cmp, StableQueue.stampCmp, compareLex, compareOn, priority]
  cases compare self.eval.priority other.eval.priority <;> rfl

end PendingEval

structure QueueDepth where
  pending : Nat
  inFlight : Nat
  blocked : Nat
  deriving DecidableEq

structure EvalQueue where
  heap : List PendingEval := []
  nextSeq : Nat := 0
  inFlight : HashMap EvalId PendingEval := ∅
  blocked : List Evaluation := []

namespace EvalQueue

def new : EvalQueue := {}

def push (self : EvalQueue) (eval : Evaluation) (dequeues : Nat) : EvalQueue :=
  { self with
    heap := { seq := self.nextSeq, eval, dequeues, dequeuedAt := none } :: self.heap
    nextSeq := self.nextSeq + 1 }

def enqueue (self : EvalQueue) (eval : Evaluation) : EvalQueue := self.push eval 0

/-- `now` is the clock reading the delivery is stamped with. -/
def dequeue (self : EvalQueue) (now : Instant) : Option Evaluation × EvalQueue :=
  match popGreatest PendingEval.cmp self.heap with
  | none => (none, self)
  | some (pe, heap) =>
    let pe := { pe with dequeues := pe.dequeues + 1, dequeuedAt := some now }
    (some pe.eval, { self with heap, inFlight := self.inFlight.insert pe.eval.id pe })

def ack (self : EvalQueue) (evalId : EvalId) : EvalQueue :=
  { self with inFlight := self.inFlight.erase evalId }

def nack (self : EvalQueue) (evalId : EvalId) : EvalQueue :=
  match self.inFlight.lookup evalId with
  | none => self
  | some pe =>
    let self' := { self with inFlight := self.inFlight.erase evalId }
    if pe.dequeues < maxDequeue then self'.push pe.eval pe.dequeues else self'

/-- Handed out at least `timeout` before the clock reading `now`; `elapsed` saturates. -/
def expired (dequeuedAt : Option Instant) (now : Instant) (timeout : Duration) : Bool :=
  dequeuedAt.any fun t => timeout ≤ now - t

/-- The ids collected by `reap_expired`; `clock` gives the reading made for each entry. -/
def expiredIds (self : EvalQueue) (clock : EvalId → Instant) (timeout : Duration) : List EvalId :=
  (self.inFlight.entries.filter fun e => expired e.2.dequeuedAt (clock e.1) timeout).map Sigma.fst

/-- An expired delivery is taken back exactly as by `nack`. -/
def reapExpired (self : EvalQueue) (clock : EvalId → Instant) (timeout : Duration) :
    Nat × EvalQueue :=
  let expired := self.expiredIds clock timeout
  (expired.length, expired.foldl nack self)

def inFlightLen (self : EvalQueue) : Nat := self.inFlight.entries.length

def block (self : EvalQueue) (eval : Evaluation) : EvalQueue :=
  { self with blocked := self.blocked ++ [eval] }

def unblockAll (self : EvalQueue) : Nat × EvalQueue :=
  (self.blocked.length,
    self.blocked.foldl (fun q eval => q.push eval 0) { self with blocked := [] })

def depth (self : EvalQueue) : QueueDepth :=
  { pending := self.heap.length
    inFlight := self.inFlight.entries.length
    blocked := self.blocked.length }

/-! ## What the operations do -/

theorem dequeue_cases (q : EvalQueue) (now : Instant) :
    (q.heap = [] ∧ q.dequeue now = (none, q)) ∨
      ∃ pe heap, popGreatest PendingEval.cmp q.heap = some (pe, heap) ∧
        q.dequeue now = (some pe.eval, { q with
          heap, inFlight := q.inFlight.insert pe.eval.id
            { pe with dequeues := pe.dequeues + 1, dequeuedAt := some now } }) := by
  cases h : popGreatest PendingEval.cmp q.heap with
  | none => exact .inl ⟨popGreatest_eq_none.1 h, by rw [dequeue, h]⟩
  | some r =>
      obtain ⟨pe, heap⟩ := r
      exact .inr ⟨pe, heap, rfl, by rw [dequeue, h]⟩

theorem mem_expiredIds {q : EvalQueue} {clock : EvalId → Instant} {timeout : Duration}
    {id : EvalId} : id ∈ q.expiredIds clock timeout ↔ ∃ pe, q.inFlight.lookup id = some pe ∧
      expired pe.dequeuedAt (clock id) timeout = true := by
  simp only [expiredIds, List.mem_map, List.mem_filter]
  constructor
  · rintro ⟨⟨k, pe⟩, ⟨hmem, hexp⟩, rfl⟩
    exact ⟨pe, AList.mem_lookup_iff.2 hmem, hexp⟩
  · rintro ⟨pe, hpe, hexp⟩
    exact ⟨⟨id, pe⟩, ⟨AList.mem_lookup_iff.1 hpe, hexp⟩, rfl⟩

theorem nodup_expiredIds (q : EvalQueue) (clock : EvalId → Instant) (timeout : Duration) :
    (q.expiredIds clock timeout).Nodup :=
  q.inFlight.keys_nodup.sublist (List.filter_sublist.map _)

theorem ack_of_lookup_none {q : EvalQueue} {id : EvalId} (h : q.inFlight.lookup id = none) :
    q.ack id = q := by rw [ack, HashMap.erase_eq_self h]

theorem nack_of_lookup_none {q : EvalQueue} {id : EvalId} (h : q.inFlight.lookup id = none) :
    q.nack id = q := by rw [nack, h]

theorem nack_of_lookup_some {q : EvalQueue} {id : EvalId} {pe : PendingEval}
    (h : q.inFlight.lookup id = some pe) :
    q.nack id = if pe.dequeues < maxDequeue then (q.ack id).push pe.eval pe.dequeues
      else q.ack id := by rw [nack, h]; rfl

theorem foldl_push (es : List Evaluation) (q : EvalQueue) :
    ∃ pes : List PendingEval, (es.foldl (fun q e => q.push e 0) q) = { q with
        heap := pes ++ q.heap, nextSeq := q.nextSeq + es.length } ∧
      pes.reverse.map PendingEval.eval = es ∧ ∀ pe ∈ pes, pe.dequeues = 0 := by
  induction es generalizing q with
  | nil => exact ⟨[], by simp, rfl, by simp⟩
  | cons e es ih =>
      obtain ⟨pes, hfold, hmap, hzero⟩ := ih (q.push e 0)
      refine ⟨pes ++ [⟨q.nextSeq, e, 0, none⟩], ?_, ?_, ?_⟩
      · rw [List.foldl_cons, hfold]
        simp [push, Nat.add_assoc, Nat.add_comm 1]
      · simp [hmap]
      · rw [List.forall_mem_append]
        exact ⟨hzero, by simp⟩

/-! ## The blocked list -/

theorem blocked_nack (q : EvalQueue) (id : EvalId) : (q.nack id).blocked = q.blocked := by
  unfold nack
  split
  · rfl
  · dsimp only
    split <;> rfl

theorem blocked_foldl_nack (ids : List EvalId) (q : EvalQueue) :
    (ids.foldl nack q).blocked = q.blocked := by
  induction ids generalizing q with
  | nil => rfl
  | cons id ids ih => rw [List.foldl_cons, ih, blocked_nack]

theorem blocked_dequeue (q : EvalQueue) (now : Instant) :
    (q.dequeue now).2.blocked = q.blocked := by
  unfold dequeue
  split <;> rfl

theorem blocked_unblockAll (q : EvalQueue) : q.unblockAll.2.blocked = [] := by
  obtain ⟨pes, hfold, _⟩ := foldl_push q.blocked { q with blocked := [] }
  exact congrArg EvalQueue.blocked hfold

end EvalQueue

/-! ## The queue under any sequence of operations -/

/-- One operation on the queue; `relayout` reorders the in-flight table. -/
inductive QueueEvent
  | enqueue (eval : Evaluation)
  | dequeue (now : Instant) (result : Option Evaluation)
  | ack (evalId : EvalId)
  | nack (evalId : EvalId)
  | reapExpired (clock : EvalId → Instant) (timeout : Duration)
  | block (eval : Evaluation)
  | unblockAll
  | relayout

inductive QueueStep (q : EvalQueue) : QueueEvent → EvalQueue → Prop
  | enqueue (eval : Evaluation) : QueueStep q (.enqueue eval) (q.enqueue eval)
  | dequeue (now : Instant) : QueueStep q (.dequeue now (q.dequeue now).1) (q.dequeue now).2
  | ack (evalId : EvalId) : QueueStep q (.ack evalId) (q.ack evalId)
  | nack (evalId : EvalId) : QueueStep q (.nack evalId) (q.nack evalId)
  | reapExpired (clock : EvalId → Instant) (timeout : Duration) :
      QueueStep q (.reapExpired clock timeout) (q.reapExpired clock timeout).2
  | block (eval : Evaluation) : QueueStep q (.block eval) (q.block eval)
  | unblockAll : QueueStep q .unblockAll q.unblockAll.2
  | relayout (inFlight : HashMap EvalId PendingEval) :
      q.inFlight.Relayout inFlight → QueueStep q .relayout { q with inFlight }

def queueSystem : System EvalQueue QueueEvent where
  start q := q = .new
  step := QueueStep

end NomadRs
