import NomadRs.Server

/-!
# Missed wakeups of blocked evaluations

A node registration commits the node and then moves the blocked evaluations back to the heap. An
evaluation whose plan came out empty is on its way to the blocked list in the meantime, where the
registration does not look. `Saw` compares the raft log with the position an evaluation was last
computed at; if nobody parks an evaluation that missed a registration (`ParksInformed`), then
whenever nothing is in progress the blocked evaluations have seen every registered node
(`no_missed_wakeup`). `missed_wakeup` is a run in which one slips through.
-/

namespace NomadRs

/-- The first `n` entries of the log include every node registration. -/
def Saw (log : List Command) (n : ℕ) : Prop :=
  ∀ k node, log[k]? = some (.upsertNode node) → k < n

theorem Saw.length (log : List Command) : Saw log log.length :=
  fun _ _ h => (List.getElem?_eq_some_iff.1 h).1

theorem Saw.append {log cs : List Command} {n : ℕ} (h : Saw log n)
    (hcs : ∀ node, .upsertNode node ∉ cs) : Saw (log ++ cs) n := by
  intro k node hk
  rcases Nat.lt_or_ge k log.length with hlt | hge
  · rw [List.getElem?_append_left hlt] at hk
    exact h k node hk
  · rw [List.getElem?_append_right hge] at hk
    exact absurd (List.mem_of_getElem? hk) (hcs node)

def Command.isUpsertNode : Command → Bool
  | .upsertNode _ => true
  | _ => false

theorem Command.isUpsertNode_iff {c : Command} :
    c.isUpsertNode = true ↔ ∃ node, c = .upsertNode node := by
  cases c <;> simp [isUpsertNode]

/-! ## The blocked list under the actions -/

theorem FollowUp.blocked_run (q : EvalQueue) (nanos : Nat) (now : Instant) (followUp : FollowUp) :
    (followUp.run q nanos now).2.blocked = if followUp = .unblock then [] else q.blocked := by
  cases followUp with
  | unblock => exact q.blocked_unblockAll
  | dequeue => exact q.blocked_dequeue now
  | _ => rfl

theorem WorkerPc.blocked_step {F : Type} [F64 F] [Crates] (clock : EvalId → Instant)
    (now : Instant) (sh : Shared) (pc : WorkerPc) :
    (pc.step F clock now sh).2.queue.blocked = sh.queue.blocked ++ match pc with
      | .block eval => [eval]
      | _ => [] := by
  cases pc with
  | block eval => rfl
  | reap =>
      rw [List.append_nil]
      exact EvalQueue.blocked_foldl_nack _ _
  | dequeue =>
      have hblocked := sh.queue.blocked_dequeue now
      simp only [step, List.append_nil]
      split
      all_goals next h => rwa [h] at hblocked
  | commit eval plan =>
      simp only [step, List.append_nil]
      split <;> rfl
  | nack eval =>
      rw [List.append_nil]
      exact sh.queue.blocked_nack eval.id
  | _ => exact (List.append_nil _).symm

namespace Server

/-- A request is still going to unblock what is blocked now. -/
def UnblockDue (s : Server) : Prop := .unblock ∈ s.requests

/-- The evaluation was last computed against a state that contained every registered node. -/
def Informed (s : Server) (eval : Evaluation) : Prop :=
  Saw s.raft.log (s.evaluatedAt eval.id)

/-- A worker parks an evaluation only if it missed no registration, or is going to be woken. -/
def ParksInformed (s : Server) : ServerEvent → Prop
  | .worker i _ _ => ∀ eval, s.workers i = .block eval → s.Informed eval ∨ s.UnblockDue
  | _ => True

def Quiet (s : Server) : Prop := (∀ i, (s.workers i).Unburdened) ∧ s.requests = []

def Woken (s : Server) : Prop := ∀ eval ∈ s.queue.blocked, s.Informed eval ∨ s.UnblockDue

section Runs
variable {F : Type} [F64 F] [Crates] {s s' : Server} {event : ServerEvent}

omit [Crates] in
theorem Woken.mono (h : s.Woken) (hblocked : s'.queue.blocked = s.queue.blocked)
    (hdue : s.UnblockDue → s'.UnblockDue)
    (hinformed : ∀ eval, s.Informed eval → s'.Informed eval ∨ s'.UnblockDue) : s'.Woken := by
  intro eval heval
  rw [hblocked] at heval
  exact (h eval heval).elim (hinformed eval) fun hd => .inr (hdue hd)

theorem Woken.act (h : s.Woken) {i : ℕ} {clock : EvalId → Instant} {now : Instant}
    (hguard : ∀ eval, s.workers i = .block eval → s.Informed eval ∨ s.UnblockDue) :
    (s.act F i clock now).Woken := by
  have hblocked := WorkerPc.blocked_step (F := F) clock now s.toShared (s.workers i)
  have hinformed (eval : Evaluation) (hi : s.Informed eval) :
      (s.act F i clock now).Informed eval := by
    rcases WorkerPc.step_raft (F := F) clock now s.toShared (s.workers i) with
      ⟨e, plan, hpc, hraft⟩ | ⟨_, hraft⟩
    · obtain ⟨done, rest, _, hcommit, _⟩ := commitPlan_spec s.raft plan.allocs
      have hlog : (s.act F i clock now).raft.log =
          s.raft.log ++ done.map Command.upsertAlloc := by
        change ((s.workers i).step F clock now s.toShared).2.raft.log = _
        rw [hraft, hcommit]
        rfl
      have hstamp : (s.act F i clock now).evaluatedAt = s.evaluatedAt := by
        simp only [Server.act, hpc]
      rw [Informed, hlog, hstamp]
      exact Saw.append hi (by simp)
    · have hlog : (s.act F i clock now).raft.log = s.raft.log := congrArg RaftNode.log hraft
      rw [Informed, hlog]
      rcases act_evaluatedAt (F := F) s i clock now eval.id with hstamp | hstamp
      · rw [hstamp]
        exact hi
      · rw [hstamp]
        exact Saw.length _
  intro eval heval
  have hmem : eval ∈ s.queue.blocked ∨ s.workers i = .block eval := by
    change eval ∈ ((s.workers i).step F clock now s.toShared).2.queue.blocked at heval
    rw [hblocked, List.mem_append] at heval
    refine heval.imp_right fun hnew => ?_
    split at hnew
    next e hpc => rw [List.mem_singleton.1 hnew, hpc]
    next => cases hnew
  have hstill : s.Informed eval ∨ s.UnblockDue := hmem.elim (h eval) (hguard eval)
  exact hstill.imp (hinformed eval) id

omit [Crates] in
theorem Woken.begin (h : s.Woken) (request : Request) : (s.beginRequest request).Woken := by
  refine h.mono rfl (List.mem_append_left _) fun eval hi => ?_
  rcases s.beginRequest_cases request with hraft | ⟨c, hc, _, hraft, hdue⟩
  · rw [Informed, hraft]
    exact .inl hi
  · by_cases hunblock : request.followUp = .unblock
    · rw [hunblock] at hdue
      exact .inr hdue
    · have hother : ∀ node, Command.upsertNode node ∉ [c] := by
        cases request <;> cases hc <;> simp_all [Request.followUp]
      rw [Informed, hraft, RaftNode.log_committed]
      exact .inl (Saw.append hi hother)

omit [Crates] in
theorem Woken.finish (h : s.Woken) {j : ℕ} {followUp : FollowUp}
    (hj : s.requests[j]? = some followUp) (nanos : Nat) (now : Instant) :
    Woken { s with
      queue := (followUp.run s.queue nanos now).2
      requests := s.requests.eraseIdx j } := by
  have hblocked := followUp.blocked_run s.queue nanos now
  by_cases hunblock : followUp = .unblock
  · intro eval heval
    rw [if_pos hunblock] at hblocked
    change eval ∈ (followUp.run s.queue nanos now).2.blocked at heval
    rw [hblocked] at heval
    cases heval
  · rw [if_neg hunblock] at hblocked
    refine h.mono hblocked (fun hdue => ?_) fun _ hi => .inl hi
    obtain ⟨k, hk⟩ := List.getElem?_of_mem hdue
    refine List.mem_eraseIdx_iff_getElem?.2 ⟨k, ?_, hk⟩
    rintro rfl
    rw [hj] at hk
    cases hk
    exact hunblock rfl

theorem Woken.next (h : s.Woken) (hguard : s.ParksInformed event)
    (hnext : s.next F event = some s') : s'.Woken := by
  cases event with
  | run =>
      cases hnext
      refine h.mono (by rw [run_queue]) (fun hdue => ?_) fun eval hi => .inl ?_
      · rwa [UnblockDue, run_requests]
      · rwa [Informed, run_raft, run_evaluatedAt]
  | stop =>
      cases hnext
      exact h
  | worker i clock now =>
      cases hnext
      unfold work
      split
      · exact h
      · exact h.act hguard
  | begin request =>
      cases hnext
      exact h.begin request
  | finish j nanos now =>
      obtain ⟨followUp, hj, rfl⟩ := Option.map_eq_some_iff.1 hnext
      exact h.finish hj nanos now
  | relayout => cases hnext

/-- If no worker parks an evaluation that missed a registration without being woken, then whenever
nothing is in progress the blocked evaluations were last computed against every registered node. -/
theorem no_missed_wakeup {nodeName : String}
    (h : (system F nodeName).ReachableVia ParksInformed s) (hquiet : s.Quiet) :
    ∀ eval ∈ s.queue.blocked, s.Informed eval := by
  have hwoken : s.Woken := by
    refine h.invariant Woken ?_ ?_
    · rintro _ rfl eval heval
      cases heval
    · rintro s event s' hs hg (⟨hnext⟩ | ⟨state, inFlight, _, _⟩)
      · exact hs.next hg hnext
      · exact hs
  intro eval heval
  rcases hwoken eval heval with hi | hdue
  · exact hi
  · rw [UnblockDue, hquiet.2] at hdue
    cases hdue

end Runs

/-! ## Runs with one evaluation -/

/-- A job is registered without any node, and worker 0 goes on to park its evaluation. -/
def toBlock : List ServerEvent :=
  [.run, .begin (.jobRegister (webJob 1)), .finish 0 0 0] ++
    List.replicate 8 (.worker 0 (fun _ => 0) 0)

def registerNode : List ServerEvent := [.begin (.nodeRegister oneNode), .finish 0 0 0]

def park : List ServerEvent := List.replicate 2 (.worker 0 (fun _ => 0) 0)

/-- The only worker is between two passes, nothing is half done, and one evaluation is blocked. -/
def parkedOne (s : Server) : Bool :=
  s.spawned == 1 && s.workers 0 == .top && s.requests.isEmpty && s.queue.blocked.length == 1

section Runs
attribute [local instance] Crates.literal

theorem quiet_of_parkedOne {nodeName : String} {s : Server}
    (hs : (system ℚ nodeName).Reachable s) (hp : s.parkedOne = true) :
    s.Quiet ∧ s.queue.blocked ≠ [] := by
  simp only [parkedOne, Bool.and_eq_true, beq_iff_eq, List.isEmpty_iff] at hp
  obtain ⟨⟨⟨hspawned, htop⟩, hrequests⟩, hblocked⟩ := hp
  refine ⟨⟨fun i => ?_, hrequests⟩, List.ne_nil_of_length_eq_add_one hblocked⟩
  rcases Nat.eq_zero_or_pos i with rfl | hi
  · rw [htop]
    trivial
  · rw [workers_eq_done hs i (hspawned.le.trans hi)]
    trivial

/-- Steps that `ParksInformed` allows: a park with nothing logged since the plan was computed. -/
def informedNext (s : Server) (event : ServerEvent) : Option Server :=
  match event with
  | .worker i _ _ => match s.workers i with
    | .block eval => if s.evaluatedAt eval.id = s.raft.log.length then s.next ℚ event else none
    | _ => s.next ℚ event
  | _ => s.next ℚ event

theorem informedNext_parksInformed {s s' : Server} {event : ServerEvent}
    (h : s.informedNext event = some s') : s.ParksInformed event ∧ Step ℚ s event s' := by
  unfold informedNext at h
  split at h
  next i _ _ =>
    split at h
    next eval hpc =>
      rw [Option.ite_none_right_eq_some] at h
      refine ⟨fun e he => .inl ?_, .next h.2⟩
      rw [hpc, WorkerPc.block.injEq] at he
      subst he
      rw [Informed, h.1]
      exact Saw.length _
    next hpc => exact ⟨fun eval hi => absurd hi (hpc eval), .next h⟩
  next hworker =>
    refine ⟨?_, .next h⟩
    cases event with
    | worker i clock now => exact absurd rfl (hworker i clock now)
    | _ => trivial

def smallNode (id : NodeId) : Node := { oneNode with id, resources := ⟨100, 100, 1⟩ }

def registerSmall (id : NodeId) : List ServerEvent :=
  [.begin (.nodeRegister (smallNode id)), .finish 0 0 0]

/-- A small node comes before the job and another one wakes the parked evaluation, which is parked
again. -/
theorem no_missed_wakeup_parkedAgain : ∃ s : Server, s.queue.blocked ≠ [] ∧
    (∃ node, s.raft.log[2]? = some (.upsertNode node)) ∧
    ∀ eval ∈ s.queue.blocked, s.Informed eval := by
  have hstart : (system ℚ "server-1").ReachableVia ParksInformed (new "server-1") := .start rfl
  obtain ⟨s, hs, hp⟩ := hstart.exists_of_exec (fun _ _ _ => informedNext_parksInformed)
    (registerSmall "node-1" ++ toBlock ++ park ++ registerSmall "node-2" ++
      List.replicate 9 (.worker 0 (fun _ => 0) 0))
    (fun s => s.parkedOne && s.raft.log[2]?.any Command.isUpsertNode) (by decide)
  rw [Bool.and_eq_true, Option.any_eq_true] at hp
  obtain ⟨hone, c, hc, hnode⟩ := hp
  obtain ⟨hquiet, hne⟩ := quiet_of_parkedOne (hs.mono fun _ _ _ => trivial) hone
  obtain ⟨node, rfl⟩ := Command.isUpsertNode_iff.1 hnode
  exact ⟨s, hne, ⟨node, hc⟩, no_missed_wakeup hs hquiet⟩

/-- A registration between the empty plan and the park. -/
theorem missed_wakeup : ¬ ∀ s, (system ℚ "server-1").Reachable s → s.Quiet →
    ∀ eval ∈ s.queue.blocked, s.Informed eval := by
  intro h
  obtain ⟨s, hs, hp⟩ := exists_reachable (F := ℚ) "server-1" (toBlock ++ registerNode ++ park)
    (fun s => s.parkedOne && s.queue.blocked.all fun eval =>
      s.evaluatedAt eval.id == 1 && s.raft.log[1]?.any Command.isUpsertNode)
    (by decide)
  rw [Bool.and_eq_true, List.all_eq_true] at hp
  obtain ⟨hquiet, hne⟩ := quiet_of_parkedOne hs hp.1
  obtain ⟨eval, heval⟩ := List.exists_mem_of_ne_nil _ hne
  have hlate := hp.2 eval heval
  rw [Bool.and_eq_true, beq_iff_eq, Option.any_eq_true] at hlate
  obtain ⟨hstamp, c, hc, hnode⟩ := hlate
  obtain ⟨node, rfl⟩ := Command.isUpsertNode_iff.1 hnode
  have hlt := h s hs hquiet eval heval 1 node hc
  omega

end Runs
end Server
end NomadRs
