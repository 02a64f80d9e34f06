import NomadRs.TaskRunner

/-!
# Restarts under a policy

How often a task runner starts its task and grants a restart in a run of any calls. A start takes
the handle, and only a granted restart, which is counted, gives it back: that is the `Ledger`.
-/

namespace NomadRs
namespace TaskRunner

def constructed (task : ConfiguredTask) (policy : RestartPolicy) : TaskRunner :=
  (new task).withRestartPolicy policy

def run (r : TaskRunner) (events : List TaskEvent) : TaskRunner := events.foldl next r

/-- The events of a run that satisfy `p` in the state they find. -/
def tally (p : TaskRunner → TaskEvent → Bool) : TaskRunner → List TaskEvent → ℕ
  | _, [] => 0
  | r, event :: events => (p r event).toNat + tally p (r.next event) events

def started (r : TaskRunner) : TaskEvent → Bool
  | .start os => (r.start os).1.isOk
  | _ => false

def granted (r : TaskRunner) : TaskEvent → Bool
  | .handleExit success => (r.handleExit success).1
  | _ => false

/-- What a run with so many starts and restarts has left. -/
structure Ledger (policy : RestartPolicy) (starts restarts : ℕ) (r : TaskRunner) : Prop where
  policyKept : r.restartPolicy = policy
  counted : r.restartCount = restarts
  bounded : restarts ≤ policy.attempts
  handles : starts ≤ restarts + r.handle.isSome.toNat

variable {r : TaskRunner} {policy : RestartPolicy} {starts restarts : ℕ}

theorem Ledger.new (task : ConfiguredTask) (policy : RestartPolicy) :
    Ledger policy 0 0 (constructed task policy) :=
  ⟨rfl, rfl, Nat.zero_le _, Nat.zero_le _⟩

theorem start_of_handle (h : r.handle.isSome) :
    ∃ e, ∀ os, r.start os = (.error e, r) :=
  ⟨_, fun _ => if_pos h⟩

theorem Ledger.start (h : Ledger policy starts restarts r) (os : Answers) :
    Ledger policy (starts + (r.started (.start os)).toNat) restarts (r.start os).2 := by
  have hstarts := h.handles
  rcases r.start_cases os with ⟨e, heq⟩ | ⟨handle, driver, hhandle, _, heq⟩
  · rw [started, heq]
    exact h
  · rw [started, heq]
    rw [hhandle] at hstarts
    exact ⟨h.policyKept, h.counted, h.bounded, Nat.add_le_add_right hstarts 1⟩

/-- Polls and stops leave the handle, the counter and the policy alone. -/
theorem poll_kept (r : TaskRunner) (os : Answers) : (r.poll os).2.handle = r.handle ∧
    (r.poll os).2.restartCount = r.restartCount ∧
    (r.poll os).2.restartPolicy = r.restartPolicy := by
  unfold poll
  split
  next => exact ⟨rfl, rfl, rfl⟩
  next =>
    split
    next => exact ⟨rfl, rfl, rfl⟩
    next handle hhandle =>
      obtain ⟨result, driver⟩ := r.driver.inspectTask handle os
      cases result <;> exact ⟨rfl, rfl, rfl⟩

theorem stop_kept (r : TaskRunner) (os : Answers) : (r.stop os).2.handle = r.handle ∧
    (r.stop os).2.restartCount = r.restartCount ∧
    (r.stop os).2.restartPolicy = r.restartPolicy := by
  unfold stop
  split
  next => exact ⟨rfl, rfl, rfl⟩
  next handle hhandle =>
    obtain ⟨result, driver⟩ := r.driver.stopTask handle os
    cases result <;> exact ⟨rfl, rfl, rfl⟩

theorem Ledger.congr {r' : TaskRunner} (h : Ledger policy starts restarts r)
    (heq : r'.handle = r.handle ∧ r'.restartCount = r.restartCount ∧
      r'.restartPolicy = r.restartPolicy) : Ledger policy starts restarts r' := by
  obtain ⟨hhandle, hcount, hpolicy⟩ := heq
  refine ⟨hpolicy.trans h.policyKept, hcount.trans h.counted, h.bounded, ?_⟩
  rw [hhandle]
  exact h.handles

/-- A restart gives the handle back and is counted; any other exit changes neither. -/
theorem Ledger.handleExit (h : Ledger policy starts restarts r) (success : Bool) :
    Ledger policy starts (restarts + (r.granted (.handleExit success)).toNat)
      (r.handleExit success).2 := by
  have hstarts := h.handles
  change Ledger policy starts (restarts + (r.handleExit success).1.toNat) (r.handleExit success).2
  unfold TaskRunner.handleExit
  split
  next => exact h.congr ⟨rfl, rfl, rfl⟩
  next =>
    split
    next hleft =>
      rw [h.counted, h.policyKept] at hleft
      have hheld : r.handle.isSome.toNat ≤ 1 := Bool.toNat_le _
      refine ⟨h.policyKept, congrArg (· + 1) h.counted, hleft, ?_⟩
      exact hstarts.trans (Nat.add_le_add_left hheld restarts)
    next => exact h.congr ⟨rfl, rfl, rfl⟩

theorem Ledger.next (h : Ledger policy starts restarts r) (event : TaskEvent) :
    Ledger policy (starts + (r.started event).toNat) (restarts + (r.granted event).toNat)
      (r.next event) := by
  cases event with
  | start os => exact h.start os
  | poll os => exact h.congr (r.poll_kept os)
  | stop os => exact h.congr (r.stop_kept os)
  | handleExit success => exact h.handleExit success
  | processExits id success => exact h.congr ⟨rfl, rfl, rfl⟩

theorem Ledger.run (h : Ledger policy starts restarts r) (events : List TaskEvent) :
    Ledger policy (starts + tally started r events) (restarts + tally granted r events)
      (r.run events) := by
  induction events generalizing r starts restarts with
  | nil => exact h
  | cons event events ih =>
      have hrest := ih (h.next event)
      rw [Nat.add_assoc, Nat.add_assoc] at hrest
      exact hrest

theorem run_append (r : TaskRunner) (before after : List TaskEvent) :
    r.run (before ++ after) = (r.run before).run after := List.foldl_append

theorem Ledger.count_le_run (h : Ledger policy starts restarts r) (events : List TaskEvent) :
    r.restartCount ≤ (r.run events).restartCount := by
  rw [(h.run events).counted, h.counted]
  exact Nat.le_add_right _ _

/-- Whatever is called in whatever order, the policy bounds the restarts, and there is one start
for each of them besides the first. -/
theorem restarts_bounded (task : ConfiguredTask) (policy : RestartPolicy)
    (events : List TaskEvent) :
    (∀ before after, events = before ++ after →
      ((constructed task policy).run before).restartCount ≤
        ((constructed task policy).run events).restartCount) ∧
    ((constructed task policy).run events).restartCount ≤ policy.attempts ∧
    tally granted (constructed task policy) events ≤ policy.attempts ∧
    tally started (constructed task policy) events ≤
      ((constructed task policy).run events).restartCount + 1 ∧
    (((constructed task policy).run events).handle.isSome →
      ∃ e, ∀ os, ((constructed task policy).run events).start os =
        (.error e, (constructed task policy).run events)) := by
  have hnew := Ledger.new task policy
  have hledger := hnew.run events
  have hbounded := hledger.bounded
  rw [Nat.zero_add] at hbounded
  refine ⟨fun before after hsplit => ?_, hledger.counted.trans_le hledger.bounded, hbounded, ?_,
    start_of_handle⟩
  · rw [hsplit, run_append]
    exact (hnew.run before).count_le_run after
  · have hstarts := hledger.handles
    have hheld : ((constructed task policy).run events).handle.isSome.toNat ≤ 1 :=
      Bool.toNat_le _
    rw [← hledger.counted] at hstarts
    omega

end TaskRunner
end NomadRs
