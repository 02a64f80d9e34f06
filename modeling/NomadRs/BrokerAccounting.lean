import NomadRs.HeldIds

/-!
# No evaluation is lost or duplicated

A run keeps a `Ledger` beside the queue: how many evaluations entered, how many were acknowledged
in flight, how many vanished in a nack or a reap, and how often each id was delivered since it was
last enqueued or unblocked. As long as no id enters that is held already, the held ids stay
distinct, the books balance, and nothing vanishes before its last delivery.
-/

namespace NomadRs

structure Ledger where
  entered : ℕ := 0
  acked : ℕ := 0
  dropped : ℕ := 0
  deliveries : EvalId → ℕ := fun _ => 0

/-- A queue operation, or the pair of calls that parks an evaluation in flight. -/
inductive BrokerEvent
  | op (event : QueueEvent)
  | park (eval : Evaluation)

def Ledger.record (L : Ledger) (q q' : EvalQueue) : BrokerEvent → Ledger
  | .op (.enqueue e) => { L with
      entered := L.entered + 1, deliveries := Function.update L.deliveries e.id 0 }
  | .op (.dequeue _ answer) => { L with deliveries := delivered L.deliveries answer }
  | .op (.ack id) => { L with
      acked := L.acked + if (q.inFlight.lookup id).isSome then 1 else 0 }
  | .op (.nack _) | .op (.reapExpired _ _) => { L with
      dropped := L.dropped + (q.lost q').length }
  | .op (.block _) => { L with entered := L.entered + 1 }
  | .op .unblockAll => { L with
      deliveries := fun id => if id ∈ q.blocked.map Evaluation.id then 0 else L.deliveries id }
  | .op .relayout => L
  | .park _ => { L with entered := L.entered + 1, acked := L.acked + 1 }

inductive BrokerStep (q : EvalQueue) : BrokerEvent → EvalQueue → Prop
  | op {event : QueueEvent} {q' : EvalQueue} : QueueStep q event q' → BrokerStep q (.op event) q'
  | park (eval : Evaluation) : BrokerStep q (.park eval) ((q.block eval).ack eval.id)

def accounting : System (EvalQueue × Ledger) BrokerEvent where
  start s := s = (.new, {})
  step s event s' := BrokerStep s.1 event s'.1 ∧ s'.2 = s.2.record s.1 s'.1 event

/-- Enqueued and blocked ids are not held yet, except that an evaluation in flight is parked. -/
def EntersFresh (q : EvalQueue) : BrokerEvent → Prop
  | .op (.enqueue e) | .op (.block e) => e.id ∉ q.held
  | .park e => (q.inFlight.lookup e.id).isSome
  | _ => True

/-! ## The invariant -/

structure Accounts (q : EvalQueue) (L : Ledger) : Prop where
  counted : Counted q L.deliveries
  balance : q.held.length + L.acked + L.dropped = L.entered
  capped : ∀ id, L.deliveries id ≤ maxDequeue

theorem Accounts.new : Accounts .new {} := ⟨.new _, rfl, fun _ => Nat.zero_le _⟩

theorem foldl_nack_lost {q : EvalQueue} {d : EvalId → ℕ} (h : Counted q d) (ids : List EvalId) :
    Counted (ids.foldl EvalQueue.nack q) d ∧
      (ids.foldl EvalQueue.nack q).held.length + (q.lost (ids.foldl EvalQueue.nack q)).length =
        q.held.length ∧
      ∀ k ∈ q.lost (ids.foldl EvalQueue.nack q), k ∈ ids ∧ d k = maxDequeue := by
  obtain ⟨h', gone, hperm, hgone⟩ := h.foldl_nack ids
  have hlost := EvalQueue.lost_perm h.nodup hperm
  refine ⟨h', ?_, fun k hk => hgone k (hlost.mem_iff.1 hk)⟩
  rw [hlost.length_eq, hperm.length_eq, List.length_append, Nat.add_comm]

theorem Accounts.step {q q' : EvalQueue} {L : Ledger} {event : BrokerEvent} (h : Accounts q L)
    (hfresh : EntersFresh q event) (hstep : BrokerStep q event q') :
    Accounts q' (L.record q q' event) := by
  obtain ⟨hcount, hbal, hcap⟩ := h
  have hupdate (id : EvalId) {n : ℕ} (hn : n ≤ maxDequeue) (k : EvalId) :
      Function.update L.deliveries id n k ≤ maxDequeue := by
    by_cases hk : k = id
    · rwa [hk, Function.update_self]
    · rw [Function.update_of_ne hk]
      exact hcap k
  cases hstep with
  | op hq =>
      cases hq with
      | enqueue e =>
          refine ⟨hcount.enqueue hfresh, ?_, hupdate e.id (Nat.zero_le _)⟩
          change (e.id :: q.held).length + L.acked + L.dropped = L.entered + 1
          rw [List.length_cons]
          omega
      | dequeue now =>
          obtain ⟨hperm, hcount', hlt⟩ := hcount.dequeue now
          refine ⟨hcount', ?_, ?_⟩
          · rw [← hperm.length_eq]
            exact hbal
          · change ∀ id, delivered L.deliveries (q.dequeue now).1 id ≤ maxDequeue
            cases hanswer : (q.dequeue now).1 with
            | none => exact hcap
            | some e => exact hupdate e.id (hlt e hanswer)
      | ack id =>
          refine ⟨hcount.ack id, ?_, hcap⟩
          change (q.ack id).held.length + (L.acked + _) + L.dropped = L.entered
          cases hpe : q.inFlight.lookup id with
          | none =>
              rw [EvalQueue.ack_of_lookup_none hpe]
              exact hbal
          | some pe =>
              have hlen := (EvalQueue.held_ack hpe).length_eq
              rw [List.length_cons] at hlen
              simp only [Option.isSome_some, ↓reduceIte]
              omega
      | nack id =>
          obtain ⟨hcount', hlen, _⟩ := foldl_nack_lost hcount [id]
          refine ⟨hcount', ?_, hcap⟩
          change (q.nack id).held.length + L.acked +
            (L.dropped + (q.lost (q.nack id)).length) = L.entered
          change (q.nack id).held.length + (q.lost (q.nack id)).length = _ at hlen
          omega
      | reapExpired clock timeout =>
          obtain ⟨hcount', hlen, _⟩ := foldl_nack_lost hcount (q.expiredIds clock timeout)
          refine ⟨hcount', ?_, hcap⟩
          change (q.reapExpired clock timeout).2.held.length + L.acked +
            (L.dropped + (q.lost (q.reapExpired clock timeout).2).length) = L.entered
          change (q.reapExpired clock timeout).2.held.length +
            (q.lost (q.reapExpired clock timeout).2).length = _ at hlen
          omega
      | block e =>
          refine ⟨hcount.block hfresh, ?_, hcap⟩
          change (q.block e).held.length + L.acked + L.dropped = L.entered + 1
          rw [EvalQueue.held_block, List.length_append, List.length_singleton]
          omega
      | unblockAll =>
          obtain ⟨hperm, hcount'⟩ := hcount.unblockAll
          refine ⟨hcount', ?_, fun id => ?_⟩
          · rw [← hperm.length_eq]
            exact hbal
          · change (if id ∈ q.blocked.map Evaluation.id then 0 else L.deliveries id) ≤ _
            split
            · exact Nat.zero_le _
            · exact hcap id
      | relayout m hm =>
          refine ⟨hcount.relayout hm, ?_, hcap⟩
          rw [← (EvalQueue.held_relayout hm).length_eq]
          exact hbal
  | park e =>
      obtain ⟨pe, hpe⟩ := Option.isSome_iff_exists.1 hfresh
      refine ⟨hcount.park hpe, ?_, hcap⟩
      change ((q.block e).ack e.id).held.length + (L.acked + 1) + L.dropped = L.entered + 1
      rw [← (Counted.held_park hpe).length_eq]
      omega

theorem accounting_next {q q' : EvalQueue} {L : Ledger} {event : BrokerEvent}
    (h : accounting.ReachableVia (fun s => EntersFresh s.1) (q, L)) (hstep : BrokerStep q event q')
    (hfresh : EntersFresh q event) :
    accounting.ReachableVia (fun s => EntersFresh s.1) (q', L.record q q' event) :=
  h.step hfresh ⟨hstep, rfl⟩

theorem Accounts.of_reachable {q : EvalQueue} {L : Ledger}
    (h : accounting.ReachableVia (fun s => EntersFresh s.1) (q, L)) : Accounts q L := by
  refine h.invariant (fun s => Accounts s.1 s.2) ?_ ?_
  · rintro _ rfl
    exact .new
  · rintro s event s' hs hg ⟨hstep, hL⟩
    rw [hL]
    exact hs.step hg hstep

/-! ## What can leave the queue -/

/-- An id leaves by its ack, or by the nack or reap of its last delivery. -/
theorem lost_of_step {q q' : EvalQueue} {d : EvalId → ℕ} {event : BrokerEvent} (h : Counted q d)
    (hfresh : EntersFresh q event) (hstep : BrokerStep q event q') {id : EvalId}
    (hid : id ∈ q.held) (hgone : id ∉ q'.held) :
    event = .op (.ack id) ∨ d id = maxDequeue ∧ (event = .op (.nack id) ∨
      ∃ clock timeout, event = .op (.reapExpired clock timeout) ∧
        id ∈ q.expiredIds clock timeout) := by
  have hlost : id ∈ q.lost q' := List.mem_filter.2 ⟨hid, by simpa using hgone⟩
  cases hstep with
  | op hq =>
      cases hq with
      | enqueue e => exact absurd (List.mem_cons_of_mem _ hid) hgone
      | dequeue now => exact absurd ((h.dequeue now).1.mem_iff.1 hid) hgone
      | ack k =>
          left
          cases hpe : q.inFlight.lookup k with
          | none =>
              rw [EvalQueue.ack_of_lookup_none hpe] at hgone
              exact absurd hid hgone
          | some pe =>
              rcases List.mem_cons.1 ((EvalQueue.held_ack hpe).mem_iff.1 hid) with rfl | hid
              · rfl
              · exact absurd hid hgone
      | nack k =>
          obtain ⟨hmem, hmax⟩ := (foldl_nack_lost h [k]).2.2 id hlost
          rw [List.mem_singleton] at hmem
          subst hmem
          exact .inr ⟨hmax, .inl rfl⟩
      | reapExpired clock timeout =>
          obtain ⟨hmem, hmax⟩ := (foldl_nack_lost h _).2.2 id hlost
          exact .inr ⟨hmax, .inr ⟨clock, timeout, rfl, hmem⟩⟩
      | block e =>
          rw [EvalQueue.held_block] at hgone
          exact absurd (List.mem_append_left _ hid) hgone
      | unblockAll => exact absurd (h.unblockAll.1.mem_iff.1 hid) hgone
      | relayout m hm => exact absurd ((EvalQueue.held_relayout hm).mem_iff.1 hid) hgone
  | park e =>
      obtain ⟨pe, hpe⟩ := Option.isSome_iff_exists.1 hfresh
      exact absurd ((Counted.held_park hpe).mem_iff.1 hid) hgone

/-- The broker's books: in every state a run reaches, held ids are distinct, the depth is what
entered less what was acked or dropped, deliveries are capped, an id leaves only by its ack or
with its last delivery, and answers for ids that are not in flight change nothing. -/
theorem broker_accounts {q : EvalQueue} {L : Ledger}
    (h : accounting.ReachableVia (fun s => EntersFresh s.1) (q, L)) :
    q.held.Nodup ∧
    q.depth.pending + q.depth.inFlight + q.depth.blocked + L.acked + L.dropped = L.entered ∧
    (∀ id, L.deliveries id ≤ maxDequeue) ∧
    (∀ event q', EntersFresh q event → BrokerStep q event q' → ∀ id ∈ q.held, id ∉ q'.held →
      event = .op (.ack id) ∨ L.deliveries id = maxDequeue ∧ (event = .op (.nack id) ∨
        ∃ clock timeout, event = .op (.reapExpired clock timeout) ∧
          id ∈ q.expiredIds clock timeout)) ∧
    ∀ id, q.inFlight.lookup id = none → q.ack id = q ∧ q.nack id = q := by
  have hacc := Accounts.of_reachable h
  refine ⟨hacc.counted.nodup, ?_, hacc.capped, fun event q' hf hs id hid hgone =>
    lost_of_step hacc.counted hf hs hid hgone, fun id hid =>
    ⟨EvalQueue.ack_of_lookup_none hid, EvalQueue.nack_of_lookup_none hid⟩⟩
  rw [← EvalQueue.held_length]
  exact hacc.balance

/-- An evaluation is delivered three times, taken back by a nack, a reap and a nack again. -/
def thriceDelivered : EvalQueue :=
  let first := ((EvalQueue.new.enqueue (webEval "a")).dequeue 0).2.nack "a"
  let second := ((first.dequeue 0).2.reapExpired (fun _ => 60) 60).2
  (second.dequeue 0).2.nack "a"

def takenUpAgain : EvalQueue :=
  let delivered := ((thriceDelivered.enqueue (webEval "b")).dequeue 0).2
  ((delivered.block (webEval "b")).ack "b").unblockAll.2

theorem takenUpAgain_reachable : ∃ L,
    accounting.ReachableVia (fun s => EntersFresh s.1) (takenUpAgain, L) ∧
      L.entered = 3 ∧ L.acked = 1 ∧ L.dropped = 1 := by
  have ha : "a" ∉ EvalQueue.new.held := by decide
  have hb : "b" ∉ thriceDelivered.held := by decide
  have hflight : ((((thriceDelivered.enqueue (webEval "b")).dequeue 0).2).inFlight.lookup
      "b").isSome := by decide
  have h₁ := accounting_next (.start rfl) (.op (.enqueue (webEval "a"))) ha
  have h₂ := accounting_next h₁ (.op (.dequeue 0)) trivial
  have h₃ := accounting_next h₂ (.op (.nack "a")) trivial
  have h₄ := accounting_next h₃ (.op (.dequeue 0)) trivial
  have h₅ := accounting_next h₄ (.op (.reapExpired (fun _ => 60) 60)) trivial
  have h₆ := accounting_next h₅ (.op (.dequeue 0)) trivial
  have h₇ := accounting_next h₆ (.op (.nack "a")) trivial
  have h₈ := accounting_next h₇ (.op (.enqueue (webEval "b"))) hb
  have h₉ := accounting_next h₈ (.op (.dequeue 0)) trivial
  have h₁₀ := accounting_next h₉ (.park (webEval "b")) hflight
  exact ⟨_, accounting_next h₁₀ (.op .unblockAll) trivial, by decide⟩

theorem broker_accounts_takenUpAgain : ∃ L : Ledger,
    takenUpAgain.depth = ⟨1, 0, 0⟩ ∧ L.entered = 3 ∧ L.acked = 1 ∧ L.dropped = 1 ∧
      takenUpAgain.depth.pending + takenUpAgain.depth.inFlight + takenUpAgain.depth.blocked +
        L.acked + L.dropped = L.entered ∧
      takenUpAgain.held.Nodup ∧ takenUpAgain.ack "a" = takenUpAgain := by
  obtain ⟨L, hL, hentered, hacked, hdropped⟩ := takenUpAgain_reachable
  obtain ⟨hnodup, hbalance, _, _, hnone⟩ := broker_accounts hL
  exact ⟨L, by decide, hentered, hacked, hdropped, hbalance, hnodup, (hnone "a" (by decide)).1⟩

end NomadRs
