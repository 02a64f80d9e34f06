import NomadRs.Custody
import NomadRs.Endpoint
import NomadRs.PlanSound
import NomadRs.Provenance

/-!
# Placements that are never revised

A delivery that expires while its worker is still at it is given out once more, and a second plan
for the evaluation would write over the allocations of the first one. `Timely` runs are those in
which this does not happen: what expires is in no worker's hands (an evaluation that a request
dequeued, say), and the clock reads differently for any two evaluations of a job. In such a run,
however the threads interleave, an evaluation has one place at a time where a plan for it can come
from, and none once it has placed: every allocation is written once and stays as it was written
(`placements_are_final`).
-/

open scoped List

namespace NomadRs

/-! ## Where evaluations are -/

def EvalQueue.standing (q : EvalQueue) : List Evaluation := q.pending ++ q.blocked

def EvalQueue.awaited (q : EvalQueue) : List EvalId := q.standing.map Evaluation.id

namespace WorkerPc

def handles : WorkerPc → List EvalId
  | .plan eval | .commit eval _ | .decide eval _ | .block eval | .ack eval | .nack eval => [eval.id]
  | _ => []

/-- The evaluation that a worker may still place, or hand on unplaced. -/
def standing : WorkerPc → List Evaluation
  | .plan eval | .commit eval _ | .block eval => [eval]
  | .decide eval p => if p.allocs = [] then [eval] else []
  | _ => []

def tokens (pc : WorkerPc) : List EvalId := pc.standing.map Evaluation.id

theorem standing_eq_nil {pc : WorkerPc} (h : pc.handles = []) : pc.standing = [] := by
  cases pc <;> first | rfl | cases h

theorem update_handles {workers : ℕ → WorkerPc} {i : ℕ} {pc : WorkerPc} (hpc : pc.handles = [])
    (hi : (workers i).handles = []) (j : ℕ) : Function.update workers i pc j = workers j ∨
      (Function.update workers i pc j).handles = [] ∧ (workers j).handles = [] := by
  by_cases hj : j = i
  · rw [hj, Function.update_self]
    exact .inr ⟨hpc, hi⟩
  · exact .inl (Function.update_of_ne hj ..)

theorem standing_congr {workers workers' : ℕ → WorkerPc}
    (h : ∀ j, workers' j = workers j ∨ (workers' j).handles = [] ∧ (workers j).handles = []) :
    (fun j => (workers' j).standing) = fun j => (workers j).standing := by
  funext j
  rcases h j with heq | ⟨hnil, hnil'⟩
  · rw [heq]
  · rw [standing_eq_nil hnil, standing_eq_nil hnil']

end WorkerPc

namespace EvalQueue
variable {q : EvalQueue}

theorem standing_unblockAll (q : EvalQueue) : q.unblockAll.2.standing ~ q.standing := by
  have hunblocks := q.unblocks_unblockAll
  rw [standing, hunblocks.blocked, List.append_nil]
  exact hunblocks.pending

theorem standing_nack {q : EvalQueue} (id : EvalId) {eval : Evaluation} (h : eval ∈ q.standing) :
    eval ∈ (q.nack id).standing := by
  cases hpe : q.inFlight.lookup id with
  | none => rwa [nack_of_lookup_none hpe]
  | some pe =>
      rw [nack_of_lookup_some hpe]
      split_ifs
      · exact List.mem_cons_of_mem _ h
      · exact h

theorem standing_foldl_nack {q : EvalQueue} (ids : List EvalId) {eval : Evaluation}
    (h : eval ∈ q.standing) : eval ∈ (ids.foldl nack q).standing := by
  induction ids generalizing q with
  | nil => exact h
  | cons id ids ih => exact ih (standing_nack id h)

theorem standing_block (q : EvalQueue) (eval : Evaluation) :
    (q.block eval).standing ~ eval :: q.standing := by
  rw [standing, block, ← List.append_assoc]
  exact List.perm_append_singleton ..

theorem standing_dequeue {queue : EvalQueue} {now : Instant} {eval : Evaluation}
    (h : q.dequeue now = (some eval, queue)) : q.standing ~ eval :: queue.standing ∧
      ∃ pe, queue.inFlight = q.inFlight.insert eval.id pe ∧ pe.eval = eval := by
  rcases q.dequeue_cases now with ⟨_, hq⟩ | ⟨pe, heap, hpop, hq⟩ <;> rw [hq] at h <;> cases h
  have hheap : q.heap ~ pe :: heap := popGreatest_perm hpop
  exact ⟨(hheap.map PendingEval.eval).append_right _, _, rfl, rfl⟩

theorem awaited_dequeue {queue : EvalQueue} {now : Instant} {eval : Evaluation}
    (h : q.dequeue now = (some eval, queue)) : q.awaited ~ eval.id :: queue.awaited ∧
      ∃ pe, queue.inFlight = q.inFlight.insert eval.id pe ∧ pe.eval = eval := by
  obtain ⟨hperm, hinsert⟩ := standing_dequeue h
  exact ⟨hperm.map Evaluation.id, hinsert⟩

theorem dequeue_eq_none {queue : EvalQueue} {now : Instant}
    (h : q.dequeue now = (none, queue)) : queue = q := by
  rcases q.dequeue_cases now with ⟨_, hq⟩ | ⟨pe, heap, _, hq⟩ <;> rw [hq] at h <;> cases h
  rfl

/-- Expired deliveries are awaited again or dropped, and in flight no more. -/
theorem foldl_nack_awaited {ids : List EvalId} (hids : ids.Nodup)
    (hkeyed : ∀ id pe, q.inFlight.lookup id = some pe → pe.eval.id = id) :
    (ids.foldl nack q).awaited <+~ ids ++ q.awaited ∧
      ∀ id pe, (ids.foldl nack q).inFlight.lookup id = some pe →
        id ∉ ids ∧ q.inFlight.lookup id = some pe := by
  induction ids generalizing q with
  | nil => exact ⟨.refl _, fun id pe h => ⟨by simp, h⟩⟩
  | cons id ids ih =>
      obtain ⟨hid, hids⟩ := List.nodup_cons.1 hids
      have hkept : ∀ k pe, (q.nack id).inFlight.lookup k = some pe →
          k ≠ id ∧ q.inFlight.lookup k = some pe := by
        intro k pe hk
        cases hpe : q.inFlight.lookup id with
        | none =>
            rw [nack_of_lookup_none hpe] at hk
            refine ⟨?_, hk⟩
            rintro rfl
            rw [hk] at hpe
            cases hpe
        | some pe' =>
            rw [nack_of_lookup_some hpe] at hk
            have hk' : (q.ack id).inFlight.lookup k = some pe := by
              split_ifs at hk <;> exact hk
            exact HashMap.lookup_erase_eq_some.1 hk'
      have hawaited : (q.nack id).awaited <+~ id :: q.awaited := by
        cases hpe : q.inFlight.lookup id with
        | none =>
            rw [nack_of_lookup_none hpe]
            exact (List.sublist_cons_self ..).subperm
        | some pe =>
            rw [nack_of_lookup_some hpe]
            split_ifs
            · rw [← hkeyed id pe hpe]
              exact .refl _
            · exact (List.sublist_cons_self ..).subperm
      obtain ⟨hrest, hlookup⟩ := ih hids fun k pe hk => hkeyed k pe (hkept k pe hk).2
      refine ⟨?_, fun k pe hk => ?_⟩
      · refine hrest.trans (((List.subperm_append_left ids).2 hawaited).trans ?_)
        exact List.perm_middle.subperm
      · obtain ⟨hnot, hk⟩ := hlookup k pe hk
        obtain ⟨hne, hk⟩ := hkept k pe hk
        exact ⟨by simp [hne, hnot], hk⟩

end EvalQueue

/-! ## What an action moves -/

def EvalQueue.Keyed (q : EvalQueue) : Prop :=
  ∀ id pe, q.inFlight.lookup id = some pe → pe.eval.id = id

/-- A worker and the queue exchange evaluations, or the worker lets go of one; and what is in flight
is in the worker's hands, or it was in flight and not in the worker's hands before. -/
structure Moves (pc : WorkerPc) (q : EvalQueue) (pc' : WorkerPc) (q' : EvalQueue) : Prop where
  tokens : pc'.tokens ++ q'.awaited <+~ pc.tokens ++ q.awaited
  keyed : q'.Keyed
  handles : ∀ id ∈ pc'.handles, id ∈ pc.handles ∨ id ∈ q.awaited
  inFlight : ∀ id pe, q'.inFlight.lookup id = some pe →
    id ∈ pc'.handles ∨ id ∉ pc.handles ∧ q.inFlight.lookup id = some pe
  settles : ∀ eval, pc' ≠ .nack eval

theorem Moves.same {pc pc' : WorkerPc} {q : EvalQueue} (hkeyed : q.Keyed)
    (htokens : pc'.tokens <+~ pc.tokens) (hhandles : pc'.handles = pc.handles)
    (hsettles : ∀ eval, pc' ≠ .nack eval) : Moves pc q pc' q where
  tokens := (List.subperm_append_right _).2 htokens
  keyed := hkeyed
  handles id hid := .inl (hhandles ▸ hid)
  inFlight id pe hpe := by
    rw [hhandles]
    exact (em (id ∈ pc.handles)).imp_right fun hnot => ⟨hnot, hpe⟩
  settles := hsettles

section Steps
variable {F : Type} [F64 F] [Crates]

theorem WorkerPc.step_moves (clock : EvalId → Instant) (now : Instant) (sh : Shared)
    {pc : WorkerPc} (hkeyed : sh.queue.Keyed) (hreap : pc ≠ .reap) (hnack : ∀ eval, pc ≠ .nack eval)
    (hcommit : ∀ eval p, pc = .commit eval p →
      commitPlan sh.raft p.allocs = (.ok (), sh.raft.commitAll p.allocs)) :
    Moves pc sh.queue (pc.step F clock now sh).1 (pc.step F clock now sh).2.queue := by
  cases pc with
  | idle => exact .same hkeyed (.refl _) rfl (by simp [WorkerPc.step])
  | top =>
      simp only [WorkerPc.step]
      split <;> exact .same hkeyed (.refl _) rfl (by simp)
  | gate =>
      simp only [WorkerPc.step]
      split <;> exact .same hkeyed (.refl _) rfl (by simp)
  | reap => exact absurd rfl hreap
  | dequeue =>
      simp only [WorkerPc.step]
      rcases hdeq : sh.queue.dequeue now with ⟨_ | eval, queue⟩
      · rw [EvalQueue.dequeue_eq_none hdeq]
        exact .same hkeyed (.refl _) rfl (by simp)
      · obtain ⟨hperm, pe, hinsert, rfl⟩ := EvalQueue.awaited_dequeue hdeq
        refine ⟨hperm.symm.subperm, fun id pe' hpe' => ?_, fun id hid => .inr ?_,
          fun id pe' hpe' => ?_, by simp⟩
        · rw [hinsert] at hpe'
          rcases HashMap.lookup_insert_eq_some.1 hpe' with ⟨rfl, rfl⟩ | ⟨_, hpe'⟩
          · rfl
          · exact hkeyed id pe' hpe'
        · rw [List.mem_singleton.1 hid]
          exact hperm.mem_iff.2 List.mem_cons_self
        · rw [hinsert] at hpe'
          rcases HashMap.lookup_insert_eq_some.1 hpe' with ⟨rfl, _⟩ | ⟨_, hpe'⟩
          · exact .inl List.mem_cons_self
          · exact .inr ⟨List.not_mem_nil, hpe'⟩
  | plan eval => exact .same hkeyed (.refl _) rfl (by simp [WorkerPc.step])
  | commit eval p =>
      simp only [WorkerPc.step]
      rw [hcommit eval p rfl]
      refine .same hkeyed ?_ rfl (by simp)
      simp only [WorkerPc.tokens, WorkerPc.standing]
      split
      · exact .refl _
      · exact List.nil_subperm
  | decide eval p =>
      simp only [WorkerPc.step]
      split
      next hparks =>
        rw [parks, Bool.and_eq_true, List.isEmpty_iff] at hparks
        refine .same hkeyed ?_ rfl (by simp)
        simp only [WorkerPc.tokens, WorkerPc.standing, if_pos hparks.1]
        exact .refl _
      next => exact .same hkeyed List.nil_subperm rfl (by simp)
  | block eval =>
      refine ⟨?_, hkeyed, fun id hid => .inl hid, fun id pe hpe => ?_, by simp [WorkerPc.step]⟩
      · change (sh.queue.block eval).awaited <+~ eval.id :: sh.queue.awaited
        exact ((sh.queue.standing_block eval).map Evaluation.id).subperm
      · exact (em (id ∈ [eval.id])).imp_right fun hnot => ⟨hnot, hpe⟩
  | ack eval =>
      refine ⟨.refl _, fun id pe hpe => ?_, fun id hid => absurd hid List.not_mem_nil,
        fun id pe hpe => .inr ?_, by simp [WorkerPc.step]⟩
      · exact hkeyed id pe (HashMap.lookup_erase_eq_some.1 hpe).2
      · obtain ⟨hne, hpe⟩ := HashMap.lookup_erase_eq_some.1 hpe
        exact ⟨by simpa [WorkerPc.handles] using hne, hpe⟩
  | nack eval => exact absurd rfl (hnack eval)
  | done => exact .same hkeyed (.refl _) rfl (by simp [WorkerPc.step])

end Steps

/-! ## Servers whose placements are final -/

def allocsOf (log : List Command) : List Allocation :=
  log.filterMap fun
    | .upsertAlloc a => some a
    | _ => none

def PlacedBy (log : List Command) (id : EvalId) : Prop :=
  ∃ a ∈ allocsOf log, ∃ n : ℕ, a.id = s!"{id}-{n}"

theorem mem_allocsOf {log : List Command} {a : Allocation} :
    a ∈ allocsOf log ↔ .upsertAlloc a ∈ log := by
  rw [allocsOf, List.mem_filterMap]
  constructor
  · rintro ⟨c, hc, hca⟩
    cases c <;> cases hca
    exact hc
  · exact fun ha => ⟨_, ha, rfl⟩

theorem allocsOf_request {log : List Command} {request : Request} {c : Command}
    (hc : request.command = some c) : allocsOf (log ++ [c]) = allocsOf log := by
  rw [allocsOf, List.filterMap_append]
  cases request <;> cases hc <;> exact List.append_nil _

theorem allocsOf_commitAll (log : List Command) (as : List Allocation) :
    allocsOf (log ++ as.map .upsertAlloc) = allocsOf log ++ as := by
  rw [allocsOf, List.filterMap_append, List.filterMap_map]
  exact congrArg _ List.filterMap_some

/-- An evaluation is awaited, or with a worker that has not placed it. -/
def Server.Open (s : Server) (id : EvalId) : Prop :=
  InCustody (fun i => (s.workers i).tokens) s.queue.awaited id

/-- No evaluation is open twice, none that has placed is open, and no id is placed twice. What is in
flight without a worker was handed to a request, and is neither open nor placed. -/
structure Server.Final (s : Server) (made : List EvalId) : Prop where
  custody : Custody (fun i => (s.workers i).tokens) s.queue.awaited
  keyed : s.queue.Keyed
  settles : ∀ i eval, s.workers i ≠ .nack eval
  opened : ∀ id, s.Open id → id ∈ made
  handled : ∀ i, ∀ id ∈ (s.workers i).handles, id ∈ made
  inFlight : ∀ id pe, s.queue.inFlight.lookup id = some pe → id ∈ made ∧
    ((∃ i, id ∈ (s.workers i).handles) ∨ ¬ s.Open id ∧ ¬ PlacedBy s.raft.log id)
  placed : ∀ id, PlacedBy s.raft.log id → id ∈ made ∧ ¬ s.Open id
  nodup : ((allocsOf s.raft.log).map Allocation.id).Nodup

namespace Server
variable {s s' : Server} {made : List EvalId} {i : ℕ} {pc' : WorkerPc}

theorem Final.new (nodeName : String) : (new nodeName).Final [] where
  custody := .new
  keyed id pe hpe := by simp [Server.new, EvalQueue.new] at hpe
  settles i eval := by simp [Server.new]
  handled i id hid := by simp [Server.new, WorkerPc.handles] at hid
  opened id hid := by simp [Server.new, Open, InCustody, WorkerPc.tokens, WorkerPc.standing,
    EvalQueue.new, EvalQueue.awaited, EvalQueue.standing, EvalQueue.pending] at hid
  inFlight id pe hpe := by simp [Server.new, EvalQueue.new] at hpe
  placed id hid := by simp [Server.new, PlacedBy, allocsOf, RaftNode.bootstrap, RaftNode.new] at hid
  nodup := List.nodup_nil

theorem Final.moves (h : s.Final made) (s' : Server) (as : List Allocation)
    (hmoves : Moves (s.workers i) s.queue pc' s'.queue)
    (hworkers : s'.workers = Function.update s.workers i pc')
    (hlog : allocsOf s'.raft.log = allocsOf s.raft.log ++ as)
    (has : as = [] ∨ ∃ id, id :: (pc'.tokens ++ s'.queue.awaited) <+~
      (s.workers i).tokens ++ s.queue.awaited ∧ ∀ a ∈ as, ∃ n : ℕ, a.id = s!"{id}-{n}")
    (hnodup : (as.map Allocation.id).Nodup) : s'.Final made := by
  have htokens : (fun j => (s'.workers j).tokens) =
      Function.update (fun j => (s.workers j).tokens) i pc'.tokens := by
    rw [hworkers]
    exact funext fun j => Function.apply_update (fun _ pc => pc.tokens) s.workers i pc' j
  have hopen {id : EvalId} (hid : s'.Open id) : s.Open id := by
    rw [Open, htokens] at hid
    exact Custody.inCustody_of_exchange hmoves.tokens hid
  have hplaced {a : Allocation} (ha : a ∈ as) {id : EvalId} {n : ℕ} (hid : a.id = s!"{id}-{n}") :
      s.Open id ∧ ¬ s'.Open id := by
    rcases has with rfl | ⟨id₀, hsub, hids⟩
    · cases ha
    · obtain ⟨m, hm⟩ := hids a ha
      obtain rfl := NumberedName.stem_eq (hid.symm.trans hm)
      refine ⟨?_, ?_⟩
      · exact (List.mem_append.1 (hsub.subset List.mem_cons_self)).elim
          (fun hi => .inr ⟨i, hi⟩) .inl
      · rw [Open, htokens]
        exact h.custody.not_inCustody hsub
  have hold {id : EvalId} (hid : PlacedBy s'.raft.log id) :
      PlacedBy s.raft.log id ∨ s.Open id ∧ ¬ s'.Open id := by
    obtain ⟨a, ha, n, hn⟩ := hid
    rw [hlog] at ha
    exact (List.mem_append.1 ha).imp (fun ha => ⟨a, ha, n, hn⟩) fun ha => hplaced ha hn
  have hother {j : ℕ} (hj : j ≠ i) : s'.workers j = s.workers j := by
    rw [hworkers, Function.update_of_ne hj]
  have hself : s'.workers i = pc' := by rw [hworkers, Function.update_self]
  refine ⟨?_, hmoves.keyed, fun j eval => ?_, fun id hid => h.opened id (hopen hid),
    fun j id hid => ?_, fun id pe hpe => ?_, fun id hid => ?_, ?_⟩
  · rw [htokens]
    exact h.custody.exchange hmoves.tokens
  · by_cases hj : j = i
    · rw [hj, hself]
      exact hmoves.settles eval
    · rw [hother hj]
      exact h.settles j eval
  · by_cases hj : j = i
    · rw [hj, hself] at hid
      exact (hmoves.handles id hid).elim (h.handled i id) fun hpool => h.opened id (.inl hpool)
    · rw [hother hj] at hid
      exact h.handled j id hid
  · rcases hmoves.inFlight id pe hpe with hhandles | ⟨hnot, hpe⟩
    · refine ⟨?_, .inl ⟨i, hself ▸ hhandles⟩⟩
      exact (hmoves.handles id hhandles).elim (h.handled i id) fun hpool => h.opened id (.inl hpool)
    · obtain ⟨hmade, hworker | ⟨hclosed, hunplaced⟩⟩ := h.inFlight id pe hpe
      · obtain ⟨j, hj⟩ := hworker
        have hji : j ≠ i := fun hji => hnot (hji ▸ hj)
        exact ⟨hmade, .inl ⟨j, (hother hji).symm ▸ hj⟩⟩
      · refine ⟨hmade, .inr ⟨fun hid => hclosed (hopen hid), fun hid => ?_⟩⟩
        exact (hold hid).elim hunplaced fun hid => hclosed hid.1
  · rcases hold hid with hid | ⟨hid, hnot⟩
    · obtain ⟨hmade, hclosed⟩ := h.placed id hid
      exact ⟨hmade, fun hid => hclosed (hopen hid)⟩
    · exact ⟨h.opened id hid, hnot⟩
  · rw [hlog, List.map_append, List.nodup_append']
    refine ⟨h.nodup, hnodup, fun id hid hid' => ?_⟩
    obtain ⟨a, ha, rfl⟩ := List.mem_map.1 hid
    obtain ⟨b, hb, hba⟩ := List.mem_map.1 hid'
    rcases has with rfl | ⟨id₀, _, hids⟩
    · cases hb
    · obtain ⟨n, hn⟩ := hids b hb
      exact (h.placed id₀ ⟨a, ha, n, hba.symm.trans hn⟩).2 (hplaced hb hn).1

/-- Evaluations become open that are neither open nor placed, and others may be handed out, while no
worker takes or leaves one. -/
theorem Final.requeue (h : s.Final made) (ids : List EvalId) {made' : List EvalId}
    (hworkers : ∀ j, s'.workers j = s.workers j ∨
      (s'.workers j).handles = [] ∧ (s.workers j).handles = [])
    (hlog : allocsOf s'.raft.log = allocsOf s.raft.log) (hmade : made ⊆ made')
    (hids : ids.Nodup)
    (hnew : ∀ id ∈ ids, id ∈ made' ∧ ¬ s.Open id ∧ ¬ PlacedBy s.raft.log id)
    (hawaited : s'.queue.awaited <+~ ids ++ s.queue.awaited) (hkeyed : s'.queue.Keyed)
    (hflight : ∀ id pe, s'.queue.inFlight.lookup id = some pe →
      id ∉ ids ∧ s.queue.inFlight.lookup id = some pe ∨ s.Open id ∧ ¬ s'.Open id) :
    s'.Final made' := by
  have hhandles (j : ℕ) : (s'.workers j).handles = (s.workers j).handles := by
    rcases hworkers j with heq | ⟨hnil, hnil'⟩
    · rw [heq]
    · rw [hnil, hnil']
  have htokens : (fun j => (s'.workers j).tokens) = fun j => (s.workers j).tokens :=
    congrArg (fun standing j => (standing j).map Evaluation.id) (WorkerPc.standing_congr hworkers)
  have hopen {id : EvalId} (hid : s'.Open id) : id ∈ ids ∨ s.Open id := by
    rw [Open, htokens] at hid
    rcases hid with hpool | hheld
    · exact (List.mem_append.1 (hawaited.subset hpool)).imp_right .inl
    · exact .inr (.inr hheld)
  have hplaced {id : EvalId} : PlacedBy s'.raft.log id ↔ PlacedBy s.raft.log id := by
    rw [PlacedBy, PlacedBy, hlog]
  refine ⟨?_, hkeyed, fun j eval heq => ?_, fun id hid => ?_, fun j id hid => ?_,
    fun id pe hpe => ?_, fun id hid => ?_, ?_⟩
  · rw [htokens]
    exact (h.custody.append hids fun id hid => (hnew id hid).2.1).of_subperm hawaited
  · rcases hworkers j with hsame | ⟨hnil, _⟩
    · exact h.settles j eval (hsame.symm.trans heq)
    · rw [heq] at hnil
      cases hnil
  · exact (hopen hid).elim (fun hid => (hnew id hid).1) fun hid => hmade (h.opened id hid)
  · rw [hhandles] at hid
    exact hmade (h.handled j id hid)
  · rcases hflight id pe hpe with ⟨hnot, hold⟩ | ⟨hid, hclosed⟩
    · obtain ⟨hin, hwhere⟩ := h.inFlight id pe hold
      refine ⟨hmade hin, hwhere.imp (fun ⟨j, hj⟩ => ⟨j, (hhandles j).symm ▸ hj⟩) ?_⟩
      rintro ⟨hclosed, hunplaced⟩
      exact ⟨fun hid => (hopen hid).elim hnot hclosed, hplaced.not.2 hunplaced⟩
    · refine ⟨hmade (h.opened id hid), .inr ⟨hclosed, hplaced.not.2 fun hplaced => ?_⟩⟩
      exact (h.placed id hplaced).2 hid
  · obtain ⟨hin, hclosed⟩ := h.placed id (hplaced.1 hid)
    refine ⟨hmade hin, fun hid' => ?_⟩
    exact (hopen hid').elim (fun hmem => (hnew id hmem).2.2 (hplaced.1 hid)) hclosed
  · rw [hlog]
    exact h.nodup

theorem Final.keep (h : s.Final made)
    (hworkers : ∀ j, s'.workers j = s.workers j ∨
      (s'.workers j).handles = [] ∧ (s.workers j).handles = [])
    (hlog : allocsOf s'.raft.log = allocsOf s.raft.log) (hqueue : s'.queue = s.queue) :
    s'.Final made := by
  refine h.requeue [] hworkers hlog (List.Subset.refl _) List.nodup_nil (by simp) ?_ ?_ ?_ <;>
    rw [hqueue]
  · exact .refl _
  · exact h.keyed
  · exact fun id pe hpe => .inl ⟨List.not_mem_nil, hpe⟩

/-! ## Timely runs -/

section Steps
variable {F : Type} [F64 F] [Crates]

def makes (s : Server) : ServerEvent → List EvalId
  | .finish j nanos _ => match s.requests[j]? with
    | some (.registered name _) | some (.deregistered name) => [evalIdFor name nanos]
    | _ => []
  | _ => []

theorem Final.act (h : s.Final made) (ht : s.Traced F) (i : ℕ) (clock : EvalId → Instant)
    (now : Instant) (htimely : s.workers i = .reap → ∀ id ∈ s.queue.expiredIds clock visibility,
      ∀ j, id ∉ (s.workers j).handles) : (s.act F i clock now).Final made := by
  by_cases hreap : s.workers i = .reap
  · have hexpired (id : EvalId) (hid : id ∈ s.queue.expiredIds clock visibility) :
        id ∈ made ∧ ¬ s.Open id ∧ ¬ PlacedBy s.raft.log id := by
      obtain ⟨pe, hpe, _⟩ := EvalQueue.mem_expiredIds.1 hid
      obtain ⟨hmade, ⟨j, hj⟩ | hfree⟩ := h.inFlight id pe hpe
      · exact absurd hj (htimely hreap id hid j)
      · exact ⟨hmade, hfree⟩
    obtain ⟨hawaited, hlookup⟩ := EvalQueue.foldl_nack_awaited
      (s.queue.nodup_expiredIds clock visibility) h.keyed
    have hqueue : (s.act F i clock now).queue =
        (s.queue.expiredIds clock visibility).foldl EvalQueue.nack s.queue := by
      simp only [Server.act, hreap, WorkerPc.step]
      rfl
    refine h.requeue (s.queue.expiredIds clock visibility) (fun j => ?_) ?_ (List.Subset.refl _)
      (s.queue.nodup_expiredIds clock visibility) hexpired ?_ ?_ ?_
    · by_cases hj : j = i
      · subst hj
        refine .inr ⟨?_, by rw [hreap]; rfl⟩
        simp only [Server.act, hreap, WorkerPc.step, Function.update_self]
        rfl
      · exact .inl (Function.update_of_ne hj ..)
    · simp only [Server.act, hreap, WorkerPc.step]
    · rw [hqueue]
      exact hawaited
    · rw [hqueue]
      exact fun id pe hpe => h.keyed id pe (hlookup id pe hpe).2
    · rw [hqueue]
      exact fun id pe hpe => .inl (hlookup id pe hpe)
  · have hcommit : ∀ eval p, s.workers i = .commit eval p →
        commitPlan s.raft p.allocs = (.ok (), s.raft.commitAll p.allocs) := by
      intro eval p hpc
      have hw := ht.workers i
      rw [hpc] at hw
      obtain ⟨_, _, _, _, _, hplan⟩ := hw
      exact commitPlan_of_valid ht.shared.leader fun a ha => (hplan.placed a ha).valid
    have hmoves := WorkerPc.step_moves (F := F) clock now s.toShared h.keyed hreap
      (h.settles i) hcommit
    rcases WorkerPc.step_raft (F := F) clock now s.toShared (s.workers i) with
      ⟨eval, p, hpc, hraft⟩ | ⟨_, hraft⟩
    · have hw := ht.workers i
      rw [hpc] at hw
      obtain ⟨_, _, st, _, _, hplan⟩ := hw
      have hnumbered : p.Numbered eval.id := by
        rw [hplan.plan]
        exact processEval_numbered F hplan.state.wellFormed eval
      refine h.moves (s.act F i clock now) p.allocs hmoves rfl ?_ ?_ hnumbered.nodup
      · change allocsOf ((s.workers i).step F clock now s.toShared).2.raft.log = _
        rw [hraft, hcommit eval p hpc]
        exact allocsOf_commitAll _ _
      · refine (em (p.allocs = [])).imp_right fun hne => ⟨eval.id, ?_, fun a ha => ?_⟩
        · change _ :: (_ ++ ((s.workers i).step F clock now s.toShared).2.queue.awaited) <+~ _
          simp only [hpc, WorkerPc.step]
          rw [hcommit eval p hpc]
          simp only [WorkerPc.tokens, WorkerPc.standing, if_neg hne]
          exact .refl _
        · obtain ⟨n, hn⟩ := List.mem_iff_getElem?.1 ha
          exact ⟨n, hnumbered n a hn⟩
    · refine h.moves (s.act F i clock now) [] hmoves rfl ?_ (.inl rfl) List.nodup_nil
      change allocsOf ((s.workers i).step F clock now s.toShared).2.raft.log = _
      rw [hraft, List.append_nil]

/-- The queue half of a request hands out evaluations, makes one, or unblocks some. -/
theorem Final.finish (h : s.Final made) (j : ℕ) (nanos : ℕ) (now : Instant)
    (hfresh : ∀ id ∈ s.makes (.finish j nanos now), id ∉ made)
    (hnext : s.next F (.finish j nanos now) = some s') :
    s'.Final (s.makes (.finish j nanos now) ++ made) := by
  obtain ⟨followUp, hj, rfl⟩ := Option.map_eq_some_iff.1 hnext
  have hnew {id : EvalId} (hid : id ∉ made) : ¬ s.Open id ∧ ¬ PlacedBy s.raft.log id :=
    ⟨fun hopen => hid (h.opened id hopen), fun hplaced => hid (h.placed id hplaced).1⟩
  have hpush (eval : Evaluation) (hid : eval.id ∉ made) : Final { s with
      queue := s.queue.enqueue eval
      requests := s.requests.eraseIdx j } (eval.id :: made) := by
    refine h.requeue [eval.id] (fun _ => .inl rfl) rfl (List.subset_cons_self ..)
      (List.nodup_singleton _) ?_ (.refl _) h.keyed fun id pe hpe => .inl ⟨?_, hpe⟩
    · exact List.forall_mem_singleton.2 ⟨List.mem_cons_self, hnew hid⟩
    · rintro hmem
      rw [List.mem_singleton.1 hmem] at hpe
      exact hid (h.inFlight _ pe hpe).1
  cases followUp with
  | registered name priority =>
      simp only [makes, hj] at hfresh ⊢
      exact hpush _ (hfresh _ List.mem_cons_self)
  | deregistered name =>
      simp only [makes, hj] at hfresh ⊢
      exact hpush _ (hfresh _ List.mem_cons_self)
  | unblock =>
      simp only [makes, hj]
      have hinFlight := s.queue.unblocks_unblockAll.inFlight
      refine h.requeue [] (fun _ => .inl rfl) rfl (List.Subset.refl _) List.nodup_nil
        (by simp) (s.queue.standing_unblockAll.map Evaluation.id).subperm ?_ ?_
      · intro id pe hpe
        exact h.keyed id pe (hinFlight ▸ hpe)
      · intro id pe hpe
        exact .inl ⟨List.not_mem_nil, hinFlight ▸ hpe⟩
  | dequeue =>
      simp only [makes, hj]
      rcases hdeq : s.queue.dequeue now with ⟨_ | eval, queue⟩
      · obtain rfl := EvalQueue.dequeue_eq_none hdeq
        refine h.requeue [] (fun _ => .inl rfl) rfl (List.Subset.refl _) List.nodup_nil (by simp)
          ?_ ?_ ?_ <;> simp only [FollowUp.run, hdeq]
        · exact .refl _
        · exact h.keyed
        · exact fun id pe hpe => .inl ⟨List.not_mem_nil, hpe⟩
      · obtain ⟨hperm, pe, hinsert, rfl⟩ := EvalQueue.awaited_dequeue hdeq
        refine h.requeue [] (fun _ => .inl rfl) rfl (List.Subset.refl _) List.nodup_nil (by simp)
          ?_ ?_ ?_ <;> simp only [FollowUp.run, hdeq]
        · exact (List.sublist_cons_self ..).subperm.trans hperm.symm.subperm
        · intro id pe' hpe'
          rw [hinsert] at hpe'
          rcases HashMap.lookup_insert_eq_some.1 hpe' with ⟨rfl, rfl⟩ | ⟨_, hpe'⟩
          · rfl
          · exact h.keyed id pe' hpe'
        · intro id pe' hpe'
          rw [hinsert] at hpe'
          rcases HashMap.lookup_insert_eq_some.1 hpe' with ⟨rfl, _⟩ | ⟨_, hpe'⟩
          · refine .inr ⟨.inl (hperm.mem_iff.2 List.mem_cons_self), ?_⟩
            exact h.custody.not_inCustody_of_cons hperm.symm.subperm
          · exact .inl ⟨List.not_mem_nil, hpe'⟩

end Steps

/-- What expires is in no worker's hands, and a new evaluation gets an id of its own. -/
def Timely (s : Server) (made : List EvalId) : ServerEvent → Prop
  | .worker i clock _ => s.workers i = .reap →
      ∀ id ∈ s.queue.expiredIds clock visibility, ∀ j, id ∉ (s.workers j).handles
  | event => ∀ id ∈ s.makes event, id ∉ made

section Steps
variable {F : Type} [F64 F] [Crates] {event : ServerEvent}

theorem Final.step (h : s.Final made) (ht : s.Traced F)
    (hdone : ∀ i, s.spawned ≤ i → s.workers i = .done) (htimely : s.Timely made event)
    (hstep : s.Step F event s') : s'.Final (s.makes event ++ made) := by
  rcases hstep with ⟨hnext⟩ | ⟨state, inFlight, hstate, hflight⟩
  · cases event with
    | run =>
        cases hnext
        unfold Server.run
        split
        · exact h
        · refine h.keep (WorkerPc.update_handles rfl ?_) rfl rfl
          rw [hdone s.spawned le_rfl]
          rfl
    | stop =>
        cases hnext
        exact h.keep (fun _ => .inl rfl) rfl rfl
    | worker i clock now =>
        cases hnext
        unfold Server.work
        split
        next hend =>
          refine h.keep (WorkerPc.update_handles rfl ?_) rfl rfl
          rw [hend.2]
          rfl
        · exact h.act ht i clock now htimely
    | begin request =>
        cases hnext
        refine h.keep (fun _ => .inl rfl) ?_ rfl
        rcases s.beginRequest_cases request with hraft | ⟨c, hc, _, hraft, _⟩
        · rw [hraft]
        · rw [hraft, RaftNode.log_committed, allocsOf_request hc]
    | finish j nanos now => exact h.finish j nanos now htimely hnext
    | relayout => cases hnext
  · refine h.requeue [] (fun _ => .inl rfl) rfl (List.Subset.refl _) List.nodup_nil (by simp)
      (.refl _) (fun id pe hpe => ?_) fun id pe hpe => .inl ⟨List.not_mem_nil, ?_⟩
    · exact h.keyed id pe ((hflight.lookup_eq id).trans hpe)
    · exact (hflight.lookup_eq id).trans hpe

end Steps
end Server

/-- A server; `made` is no part of the program: it lists the ids of the evaluations that requests
have made. -/
structure TimedServer where
  server : Server
  made : List EvalId := []

section Runs
variable (F : Type) [F64 F] [Crates]

def timedSystem (nodeName : String) : System TimedServer ServerEvent where
  start r := r = ⟨.new nodeName, []⟩
  step r event r' := r.server.Step F event r'.server ∧ r'.made = r.server.makes event ++ r.made

variable {F} {nodeName : String} {r : TimedServer}

theorem Server.Final.of_reachable
    (h : (timedSystem F nodeName).ReachableVia (fun r => r.server.Timely r.made) r) :
    (Server.system F nodeName).Reachable r.server ∧ r.server.Final r.made := by
  refine h.invariant (fun r => (Server.system F nodeName).Reachable r.server ∧
    r.server.Final r.made) ?_ ?_
  · rintro _ rfl
    exact ⟨.start rfl, .new nodeName⟩
  · rintro r event r' ⟨hreach, hfinal⟩ htimely ⟨hstep, hmade⟩
    rw [hmade]
    exact ⟨hreach.next hstep, hfinal.step (.of_reachable hreach) (Server.workers_eq_done hreach)
      htimely hstep⟩

/-- In a run in which nothing expires in a worker's hands and no two evaluations get the same id,
no allocation id is written twice: what was committed is what is stored. -/
theorem placements_are_final
    (h : (timedSystem F nodeName).ReachableVia (fun r => r.server.Timely r.made) r) :
    ((allocsOf r.server.raft.log).map Allocation.id).Nodup ∧
      ∀ alloc, .upsertAlloc alloc ∈ r.server.raft.log ↔
        r.server.raft.state.getAlloc alloc.id = some alloc := by
  obtain ⟨hreach, hfinal⟩ := Server.Final.of_reachable h
  have hstate := (Server.Traced.of_reachable hreach).shared.state
  have hstored {id : AllocId} {alloc : Allocation}
      (hid : r.server.raft.state.getAlloc id = some alloc) :
      alloc.id = id ∧ .upsertAlloc alloc ∈ r.server.raft.log := by
    obtain ⟨c, hc, hkey, hvalue⟩ := hstate.exists_of_read (k := .alloc id)
      (congrArg (Option.map Entity.alloc) hid)
    obtain rfl : c = .upsertAlloc alloc := by
      cases c <;> cases hvalue
      rfl
    exact ⟨EntityKey.alloc.inj hkey, hc⟩
  refine ⟨hfinal.nodup, fun alloc => ⟨fun halloc => ?_, fun hid => (hstored hid).2⟩⟩
  have hread := hstate.read_isSome halloc fun d hd => by
    cases d with
    | upsertAlloc alloc' => rfl
    | _ => cases hd
  obtain ⟨entity, hentity⟩ := Option.isSome_iff_exists.1 hread
  obtain ⟨alloc', halloc', _⟩ := Option.map_eq_some_iff.1 hentity
  obtain ⟨hid, hlogged⟩ := hstored halloc'
  have hsame : alloc' = alloc := List.inj_on_of_nodup_map hfinal.nodup
    (mem_allocsOf.2 hlogged) (mem_allocsOf.2 halloc) hid
  rw [halloc', hsame]

end Runs

section Runs
attribute [local instance] Crates.literal

def Server.expiring (s : Server) : ServerEvent → List EvalId
  | .worker _ clock _ => s.queue.expiredIds clock visibility
  | _ => []

/-- Steps that `Timely` allows: nothing expires at all, and a new evaluation gets an id of its
own. -/
def TimedServer.next (r : TimedServer) (event : ServerEvent) : Option TimedServer :=
  if r.server.expiring event = [] ∧ ∀ id ∈ r.server.makes event, id ∉ r.made then
    (r.server.next ℚ event).map fun server => ⟨server, r.server.makes event ++ r.made⟩
  else none

theorem TimedServer.next_timely {r r' : TimedServer} {event : ServerEvent}
    (h : r.next event = some r') :
    r.server.Timely r.made event ∧ (timedSystem ℚ "server-1").step r event r' := by
  rw [TimedServer.next, Option.ite_none_right_eq_some, Option.map_eq_some_iff] at h
  obtain ⟨⟨hexpired, hfresh⟩, server, hnext, rfl⟩ := h
  refine ⟨?_, .next hnext, rfl⟩
  cases event with
  | worker i clock now =>
      intro _ id hid
      have hnone : r.server.queue.expiredIds clock visibility = [] := hexpired
      rw [hnone] at hid
      cases hid
  | _ => exact hfresh

/-- Two allocations of a plan that was committed after its node had been drained. -/
theorem placements_are_final_stale : ∃ r : TimedServer, r.server.staleLog = true ∧
    ((allocsOf r.server.raft.log).map Allocation.id).Nodup := by
  have hstart : (timedSystem ℚ "server-1").ReachableVia (fun r => r.server.Timely r.made)
      ⟨.new "server-1", []⟩ := .start rfl
  obtain ⟨r, hr, hp⟩ := hstart.exists_of_exec (fun _ _ _ => TimedServer.next_timely)
    (Server.toCommit 2 ++
      [.begin (.nodeRegister { oneNode with draining := true }), .worker 0 (fun _ => 0) 0])
    (fun r => r.server.staleLog) (by decide)
  exact ⟨r, hp, (placements_are_final hr).1⟩

end Runs
end NomadRs
