import NomadRs.CommitSafety

/-!
# Stopping a server

`stop` sets a flag that a worker reads between two passes, and aborts the task, which has an effect
only while it sleeps. A worker in the middle of a pass goes on with it, takes an evaluation if it
has not done so yet, places and settles it, and then sees the flag: unless `run` resets it, every
worker commits one more plan at most and is done after nine of its own actions, whatever the others
do in between (`stop_ends_workers`).
-/

namespace NomadRs

/-- How many actions are left to a worker that will see the flag. -/
def WorkerPc.left : WorkerPc → ℕ
  | .done => 0
  | .top => 1
  | .idle | .ack _ | .nack _ => 2
  | .block _ => 3
  | .decide _ _ => 4
  | .commit _ _ => 5
  | .plan _ => 6
  | .dequeue => 7
  | .reap => 8
  | .gate => 9

theorem WorkerPc.left_le (pc : WorkerPc) : pc.left ≤ 9 := by
  cases pc <;> simp [left]

theorem WorkerPc.eq_done_of_left {pc : WorkerPc} (h : pc.left = 0) : pc = .done := by
  cases pc <;> first | rfl | cases h

section Steps
variable (F : Type) [F64 F] [Crates]

/-- With the flag set every action brings a worker closer to its end. -/
theorem WorkerPc.left_step (clock : EvalId → Instant) (now : Instant) {sh : Shared}
    (hdown : sh.shutdown = true) (pc : WorkerPc) :
    (pc.step F clock now sh).1.left ≤ pc.left - 1 ∧
      (pc.step F clock now sh).2.shutdown = true := by
  cases pc with
  | top =>
      simp only [WorkerPc.step, hdown]
      exact ⟨by decide, trivial⟩
  | gate =>
      simp only [WorkerPc.step]
      split <;> exact ⟨by simp [WorkerPc.left], hdown⟩
  | dequeue =>
      simp only [WorkerPc.step]
      split <;> exact ⟨by simp [WorkerPc.left], hdown⟩
  | commit eval p =>
      simp only [WorkerPc.step]
      split <;> exact ⟨by simp [WorkerPc.left], hdown⟩
  | decide eval p =>
      simp only [WorkerPc.step]
      split <;> exact ⟨by simp [WorkerPc.left], hdown⟩
  | _ => exact ⟨by simp [WorkerPc.step, WorkerPc.left], hdown⟩

namespace Server

/-- A run of any events but `run`, in which worker `i` acts `n` times, `k` of these to commit a
plan. -/
inductive Continues (i : ℕ) : ℕ → ℕ → Server → Server → Prop
  | refl (s : Server) : Continues i 0 0 s s
  | worker {n k : ℕ} {s s' s'' : Server} {clock : EvalId → Instant} {now : Instant} :
      Continues i n k s s' → (∀ eval p, s'.workers i ≠ .commit eval p) →
      Step F s' (.worker i clock now) s'' → Continues i (n + 1) k s s''
  | commit {n k : ℕ} {s s' s'' : Server} {clock : EvalId → Instant} {now : Instant}
      {eval : Evaluation} {p : Plan} :
      Continues i n k s s' → s'.workers i = .commit eval p →
      Step F s' (.worker i clock now) s'' → Continues i (n + 1) (k + 1) s s''
  | other {n k : ℕ} {s s' s'' : Server} {event : ServerEvent} :
      Continues i n k s s' → event ≠ .run → (∀ clock now, event ≠ .worker i clock now) →
      Step F s' event s'' → Continues i n k s s''

variable {F} {s s' : Server} {i n k : ℕ}

theorem left_worker (hdown : s.shutdown = true) {clock : EvalId → Instant} {now : Instant}
    (hstep : Step F s (.worker i clock now) s') :
    (s'.workers i).left ≤ (s.workers i).left - 1 ∧ s'.shutdown = true := by
  obtain ⟨hnext⟩ := hstep
  cases hnext
  unfold work
  split
  · simp only [Function.update_self]
    exact ⟨Nat.zero_le _, hdown⟩
  · simp only [act, Function.update_self]
    exact WorkerPc.left_step F clock now hdown (s.workers i)

/-- The other threads leave a worker where it is, and the flag as it is. -/
theorem left_other (hdown : s.shutdown = true) {event : ServerEvent} (hrun : event ≠ .run)
    (hother : ∀ clock now, event ≠ .worker i clock now) (hstep : Step F s event s') :
    s'.workers i = s.workers i ∧ s'.shutdown = true := by
  rcases hstep with ⟨hnext⟩ | _
  · cases event with
    | run => exact absurd rfl hrun
    | stop =>
        cases hnext
        exact ⟨rfl, rfl⟩
    | worker j clock now =>
        have hj : i ≠ j := by
          rintro rfl
          exact hother clock now rfl
        cases hnext
        unfold work
        split
        · exact ⟨Function.update_of_ne hj .., hdown⟩
        · exact ⟨Function.update_of_ne hj ..,
            (WorkerPc.left_step F clock now hdown (s.workers j)).2⟩
    | begin request =>
        cases hnext
        exact ⟨rfl, hdown⟩
    | finish j nanos now =>
        obtain ⟨followUp, _, rfl⟩ := Option.map_eq_some_iff.1 hnext
        exact ⟨rfl, hdown⟩
    | relayout => cases hnext
  · exact ⟨rfl, hdown⟩

theorem Continues.left_le (h : Continues F i n k s s') (hdown : s.shutdown = true) :
    s'.shutdown = true ∧ (s'.workers i).left ≤ (s.workers i).left - n ∧
      (k = 0 ∨ k = 1 ∧ (s'.workers i).left < 5) := by
  induction h with
  | refl s => exact ⟨hdown, le_rfl, .inl rfl⟩
  | worker _ _ hstep ih =>
      obtain ⟨hdown, hleft, hcommits⟩ := ih hdown
      obtain ⟨hnext, hdown⟩ := left_worker hdown hstep
      exact ⟨hdown, by omega, hcommits.imp_right fun ⟨hk, hlt⟩ => ⟨hk, by omega⟩⟩
  | @commit n k s s' s'' clock now eval p _ hpc hstep ih =>
      obtain ⟨hdown, hleft, hcommits⟩ := ih hdown
      obtain ⟨hnext, hdown⟩ := left_worker hdown hstep
      -- no commit can have come before, for then there would be less left than this one
      have hfive : (s'.workers i).left = 5 := by
        rw [hpc]
        rfl
      exact ⟨hdown, by omega, .inr ⟨by omega, by omega⟩⟩
  | other _ hrun hother hstep ih =>
      obtain ⟨hdown, hleft, hcommits⟩ := ih hdown
      obtain ⟨hsame, hdown⟩ := left_other hdown hrun hother hstep
      rw [hsame]
      exact ⟨hdown, hleft, hcommits⟩

/-- After `stop`, and as long as `run` is not called, a worker commits one more plan at most, and is
done once it has acted nine times. -/
theorem stop_ends_workers (h : Continues F i n k s.stop s') :
    k ≤ 1 ∧ (9 ≤ n → s'.workers i = .done) := by
  obtain ⟨_, hleft, hcommits⟩ := h.left_le rfl
  have hbound := (s.stop.workers i).left_le
  exact ⟨by omega, fun hn => WorkerPc.eq_done_of_left (by omega)⟩

theorem exists_continues (i : ℕ) (clock : EvalId → Instant) (now : Instant) (s : Server) (n : ℕ) :
    ∃ k, Continues F i n k s ((fun s => s.work F i clock now)^[n] s) := by
  induction n with
  | zero => exact ⟨0, .refl s⟩
  | succ n ih =>
      obtain ⟨k, hrun⟩ := ih
      rw [Function.iterate_succ_apply']
      have hstep (s : Server) : Step F s (.worker i clock now) (s.work F i clock now) := .next rfl
      by_cases hpc : ∃ eval p, ((fun s => s.work F i clock now)^[n] s).workers i = .commit eval p
      · obtain ⟨eval, p, hpc⟩ := hpc
        exact ⟨k + 1, hrun.commit hpc (hstep _)⟩
      · push Not at hpc
        exact ⟨k, hrun.worker hpc (hstep _)⟩

end Server
end Steps

section Runs
attribute [local instance] Crates.literal
open Server

theorem stop_ends_workers_toCommit : ∃ s s' : Server, s.commitsNext 0 2 true = true ∧
    (∃ k, Continues ℚ 0 9 k s.stop s') ∧ s'.workers 0 = .done := by
  obtain ⟨s, _, hnext⟩ := exists_reachable (F := ℚ) "server-1" (toCommit 2)
    (commitsNext 0 2 true) (by decide)
  obtain ⟨k, hrun⟩ := exists_continues (F := ℚ) 0 (fun _ => 0) 0 s.stop 9
  exact ⟨s, _, hnext, ⟨k, hrun⟩, (stop_ends_workers hrun).2 le_rfl⟩

end Runs
end NomadRs
