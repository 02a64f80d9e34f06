import NomadRs.Worker

/-!
# Evaluations without a placement

`drainQueue` processes the pending evaluations one after the other, as the worker does in one pass
each. Both park an evaluation as blocked before they acknowledge it if it wanted placements and
got none (`empty_plan_blocked`). A plan that places some of the wanted instances but not all is
acknowledged like a full one (`partial_plan_not_blocked`).
-/

namespace NomadRs

/-- What a drain leaves behind. `acked` is no part of the program: it lists the acknowledged
evaluations with the plans they got. -/
structure Drained where
  result : Result Nat
  queue : EvalQueue
  fsm : Fsm
  acked : List (Evaluation × Plan) := []

theorem EvalQueue.heap_length_dequeue {q queue : EvalQueue} {now : Instant} {eval : Evaluation}
    (h : q.dequeue now = (some eval, queue)) : queue.heap.length < q.heap.length := by
  rcases q.dequeue_cases now with ⟨_, hdeq⟩ | ⟨pe, heap, hpop, hdeq⟩
  · rw [hdeq] at h
    cases h
  · rw [hdeq] at h
    cases h
    have hlen := (popGreatest_perm hpop).length_eq
    rw [List.length_cons] at hlen
    change heap.length < q.heap.length
    omega

section Drain
variable (F : Type) [F64 F] [Crates]

/-- The loop of `drain_queue`; `clock n` is what the clock reads while `n` evaluations pend. -/
def drainLoop (clock : ℕ → Instant) (placed : Nat) (queue : EvalQueue) (fsm : Fsm) : Drained :=
  match _hdeq : queue.dequeue (clock queue.heap.length) with
  | (none, queue') => { result := .ok placed, queue := queue', fsm }
  | (some eval, queue') =>
    match processAndApply F eval fsm with
    | (.ok plan, fsm') =>
      let parked := if parks eval plan fsm'.state then queue'.block eval else queue'
      let rest := drainLoop clock (placed + plan.allocs.length) (parked.ack eval.id) fsm'
      { rest with acked := (eval, plan) :: rest.acked }
    | (.error e, fsm') => { result := .error e, queue := queue'.nack eval.id, fsm := fsm' }
termination_by queue.heap.length
decreasing_by
  have hlen := EvalQueue.heap_length_dequeue _hdeq
  split <;> exact hlen

def drainQueue (clock : ℕ → Instant) (queue : EvalQueue) (fsm : Fsm) : Drained :=
  drainLoop F clock 0 queue fsm

/-! ## Placements do not touch jobs -/

omit F [F64 F] [Crates] in
theorem desiredCount_congr {s s' : StateStore} (h : s'.jobs = s.jobs) (eval : Evaluation) :
    desiredCount eval s' = desiredCount eval s := by
  rw [desiredCount, desiredCount, StateStore.getJob, StateStore.getJob, h]

theorem processAndApply_jobs (eval : Evaluation) (fsm : Fsm) :
    (processAndApply F eval fsm).2.state.jobs = fsm.state.jobs := by
  obtain ⟨done, rest, _, hst, _⟩ := applyPlan_spec fsm (processEval F eval fsm.state).allocs
  rw [processAndApply_eq, hst, StateStore.commitAll_jobs]

variable {F}

omit F [F64 F] [Crates] in
theorem parks_of_empty {eval : Evaluation} {plan : Plan} {s s' : StateStore}
    (hjobs : s'.jobs = s.jobs) (hplan : plan.allocs = []) (hwanted : 0 < desiredCount eval s) :
    parks eval plan s' = true := by
  rw [parks, desiredCount_congr hjobs, hplan]
  simpa using hwanted

/-! ## Empty plans are parked -/

omit F [F64 F] [Crates] in
theorem mem_blocked_park {queue : EvalQueue} {e eval : Evaluation} {park : Bool} :
    eval ∈ (if park = true then queue.block e else queue).blocked ↔
      eval ∈ queue.blocked ∨ park = true ∧ eval = e := by
  cases park <;> simp [EvalQueue.block]

theorem mem_blocked_drainLoop {clock : ℕ → Instant} {placed : ℕ} {queue : EvalQueue} {fsm : Fsm}
    {eval : Evaluation} (h : eval ∈ queue.blocked) :
    eval ∈ (drainLoop F clock placed queue fsm).queue.blocked := by
  fun_induction drainLoop F clock placed queue fsm with
  | case1 placed queue fsm queue' hdeq =>
      have hblocked := queue.blocked_dequeue (clock queue.heap.length)
      rw [hdeq] at hblocked
      exact hblocked ▸ h
  | case2 placed queue fsm e queue' hdeq plan fsm' hproc parked rest ih =>
      have hblocked := queue.blocked_dequeue (clock queue.heap.length)
      rw [hdeq] at hblocked
      exact ih (mem_blocked_park.2 (.inl (hblocked ▸ h)))
  | case3 placed queue fsm e queue' hdeq err fsm' hproc =>
      have hblocked := queue.blocked_dequeue (clock queue.heap.length)
      rw [hdeq] at hblocked
      rw [EvalQueue.blocked_nack]
      exact hblocked ▸ h

theorem mem_blocked_of_acked {clock : ℕ → Instant} {placed : ℕ} {queue : EvalQueue} {fsm : Fsm}
    {eval : Evaluation} {plan : Plan}
    (hacked : (eval, plan) ∈ (drainLoop F clock placed queue fsm).acked)
    (hplan : plan.allocs = []) (hwanted : 0 < desiredCount eval fsm.state) :
    eval ∈ (drainLoop F clock placed queue fsm).queue.blocked := by
  fun_induction drainLoop F clock placed queue fsm with
  | case1 placed queue fsm queue' hdeq => cases hacked
  | case2 placed queue fsm e queue' hdeq p fsm' hproc parked rest ih =>
      have hjobs := processAndApply_jobs F e fsm
      rw [hproc] at hjobs
      rcases List.mem_cons.1 hacked with heq | hlater
      · cases heq
        exact mem_blocked_drainLoop
          (mem_blocked_park.2 (.inr ⟨parks_of_empty hjobs hplan hwanted, rfl⟩))
      · exact ih hlater (by rwa [desiredCount_congr hjobs])
  | case3 placed queue fsm e queue' hdeq err fsm' hproc => cases hacked

theorem mem_blocked_of_acked_pass {clock : EvalId → Instant} {now : Instant} {sh : Shared}
    {eval : Evaluation} {plan : Plan}
    (hacked : (workerIteration F clock now sh).1 = .acked eval plan)
    (hplan : plan.allocs = []) (hwanted : 0 < desiredCount eval sh.raft.state) :
    eval ∈ (workerIteration F clock now sh).2.queue.blocked := by
  rcases workerIteration_cases F clock now sh with
    ⟨_, hne⟩ | ⟨e, queue, _, ⟨raft, hcom, hpass⟩ | ⟨err, raft, _, hpass⟩⟩
  · exact absurd hacked (hne eval plan)
  · rw [hpass] at hacked ⊢
    cases hacked
    obtain ⟨done, rest, _, hcommit, _⟩ :=
      commitPlan_spec sh.raft (processEval F eval sh.raft.state).allocs
    rw [hcom] at hcommit
    have hjobs : raft.state.jobs = sh.raft.state.jobs := by
      rw [show raft = _ from hcommit, RaftNode.state_commitAll, StateStore.commitAll_jobs]
    exact mem_blocked_park.2 (.inr ⟨parks_of_empty hjobs hplan hwanted, rfl⟩)
  · rw [hpass] at hacked
    cases hacked

/-- An evaluation that is acknowledged although it wanted instances and got none is left in the
blocked list, by a drain as by a pass of the worker. -/
theorem empty_plan_blocked (eval : Evaluation) (plan : Plan) (hplan : plan.allocs = []) :
    (∀ (clock : ℕ → Instant) (queue : EvalQueue) (fsm : Fsm),
      (eval, plan) ∈ (drainQueue F clock queue fsm).acked → 0 < desiredCount eval fsm.state →
        eval ∈ (drainQueue F clock queue fsm).queue.blocked) ∧
    (∀ (clock : EvalId → Instant) (now : Instant) (sh : Shared),
      (workerIteration F clock now sh).1 = .acked eval plan →
        0 < desiredCount eval sh.raft.state →
          eval ∈ (workerIteration F clock now sh).2.queue.blocked) :=
  ⟨fun _ _ _ hacked hwanted => mem_blocked_of_acked hacked hplan hwanted,
    fun _ _ _ hacked hwanted => mem_blocked_of_acked_pass hacked hplan hwanted⟩

end Drain

/-! ## One evaluation -/

section Runs
attribute [local instance] Crates.literal

def oneQueued (job : Job) (nodes : List Node) : Shared where
  raft := ((RaftNode.bootstrap "server-1").proposeAll
    (nodes.map .upsertNode ++ [.upsertJob job])).2
  queue := EvalQueue.new.enqueue (webEval "eval-1")

def noRoom : Shared := oneQueued (webJob 1) []

theorem empty_plan_blocked_noRoom :
    webEval "eval-1" ∈
        (drainQueue ℚ (fun _ => 0) noRoom.queue noRoom.raft.fsm).queue.blocked ∧
      webEval "eval-1" ∈ (workerIteration ℚ (fun _ => 0) 0 noRoom).2.queue.blocked :=
  ⟨(empty_plan_blocked (webEval "eval-1") {} rfl).1 _ _ _ (by decide +kernel) (by decide),
    (empty_plan_blocked (webEval "eval-1") {} rfl).2 _ _ _ (by decide) (by decide)⟩

def roomForTwo : Shared := oneQueued (webJob 3) [oneNode]

def twoPlaced : Plan := processEval ℚ (webEval "eval-1") roomForTwo.raft.state

/-- The third instance is not waited for. -/
theorem partial_plan_not_blocked :
    (¬ ∀ (clock : ℕ → Instant) (queue : EvalQueue) (fsm : Fsm) (eval : Evaluation) (plan : Plan),
      (eval, plan) ∈ (drainQueue ℚ clock queue fsm).acked →
        (fsm.state.getJob eval.jobId).isSome → plan.allocs.length < desiredCount eval fsm.state →
          ∃ e ∈ (drainQueue ℚ clock queue fsm).queue.blocked, e.jobId = eval.jobId) ∧
    (¬ ∀ (clock : EvalId → Instant) (now : Instant) (sh : Shared) (eval : Evaluation) (plan : Plan),
      (workerIteration ℚ clock now sh).1 = .acked eval plan →
        (sh.raft.state.getJob eval.jobId).isSome →
          plan.allocs.length < desiredCount eval sh.raft.state →
            ∃ e ∈ (workerIteration ℚ clock now sh).2.queue.blocked, e.jobId = eval.jobId) := by
  have hshort : (twoPlaced.allocs.length : Int) <
      desiredCount (webEval "eval-1") roomForTwo.raft.state := by decide
  constructor
  · intro h
    obtain ⟨e, he, _⟩ := h (fun _ => 0) roomForTwo.queue roomForTwo.raft.fsm (webEval "eval-1")
      twoPlaced (by decide +kernel) (by decide) hshort
    have hnone : (drainQueue ℚ (fun _ => 0) roomForTwo.queue roomForTwo.raft.fsm).queue.blocked =
        [] := by decide +kernel
    rw [hnone] at he
    cases he
  · intro h
    obtain ⟨e, he, _⟩ := h (fun _ => 0) 0 roomForTwo (webEval "eval-1") twoPlaced
      (by decide) (by decide) hshort
    have hnone : (workerIteration ℚ (fun _ => 0) 0 roomForTwo).2.queue.blocked = [] := by decide
    rw [hnone] at he
    cases he

end Runs
end NomadRs
