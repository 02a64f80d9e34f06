import NomadRs.State

/-!
# The single-node consensus log

`RaftNode.propose` appends a command to the log, applies it to the state machine and takes it off
the log again if the state machine rejects it. The log of a leader is exactly the history that
rebuilds its state: `log_replays_to_state` is about every sequence of proposals, accepted and
rejected mixed.
-/

namespace NomadRs

inductive RaftRole
  | leader | follower | candidate
  deriving DecidableEq

structure RaftNode where
  id : String
  role : RaftRole
  log : List Command
  fsm : Fsm

/-- Applying the commands of a log in order, stopping at the first rejected one. -/
def Fsm.replay : Fsm → List Command → Result Fsm
  | fsm, [] => .ok fsm
  | fsm, c :: cs =>
    match fsm.apply c with
    | (.ok _, fsm') => fsm'.replay cs
    | (.error e, _) => .error e

theorem Fsm.replay_append (fsm : Fsm) (cs ds : List Command) :
    fsm.replay (cs ++ ds) = fsm.replay cs >>= fun fsm' => fsm'.replay ds := by
  induction cs generalizing fsm with
  | nil => rfl
  | cons c cs ih =>
      simp only [List.cons_append, replay]
      split
      · exact ih _
      · rfl

namespace RaftNode

def new (id : String) : RaftNode := { id, role := .follower, log := [], fsm := .new }

def bootstrap (id : String) : RaftNode := { new id with role := .leader }

def isLeader (self : RaftNode) : Bool := self.role == .leader

def leaderAddr (_ : RaftNode) : Option String := none

def state (self : RaftNode) : StateStore := self.fsm.state

def committedIndex (self : RaftNode) : Nat := self.log.length

def propose (self : RaftNode) (command : Command) : Result Unit × RaftNode :=
  if !self.isLeader then (.error (.runtime "not the leader, cannot propose"), self)
  else
    -- append first, so that the state machine never gets ahead of the log
    let log := self.log ++ [command]
    match self.fsm.apply command with
    | (.error e, fsm) => (.error e, { self with log := log.dropLast, fsm })
    | (.ok _, fsm) => (.ok (), { self with log, fsm })

def committed (node : RaftNode) (c : Command) : RaftNode :=
  { node with log := node.log ++ [c], fsm := ⟨node.state.applied c⟩ }

@[simp] theorem state_committed (node : RaftNode) (c : Command) :
    (node.committed c).state = node.state.applied c := rfl

@[simp] theorem log_committed (node : RaftNode) (c : Command) :
    (node.committed c).log = node.log ++ [c] := rfl

theorem propose_cases (node : RaftNode) (c : Command) :
    (node.isLeader = true ∧ node.state.Accepts c ∧
      node.propose c = (.ok (), node.committed c)) ∨
      ((node.isLeader = true → ¬ node.state.Accepts c) ∧
        ∃ e, node.propose c = (.error e, node)) := by
  by_cases hl : node.isLeader = true
  · rcases node.fsm.apply_cases c with ⟨hc, h⟩ | ⟨hc, e, h⟩
    · exact .inl ⟨hl, hc, by simp [propose, hl, h, state, committed]⟩
    · exact .inr ⟨fun _ => hc, e, by simp [propose, hl, h]⟩
  · exact .inr ⟨fun h => absurd h hl, .runtime "not the leader, cannot propose",
      by simp [propose, hl]⟩

theorem propose_error {node : RaftNode} {c : Command} {e : Error}
    (h : (node.propose c).1 = .error e) : (node.propose c).2 = node := by
  rcases node.propose_cases c with ⟨_, _, hc⟩ | ⟨_, _, hc⟩
  · simp [hc] at h
  · rw [hc]

theorem propose_of_not_leader {node : RaftNode} (hl : node.isLeader = false) (c : Command) :
    node.propose c = (.error (.runtime "not the leader, cannot propose"), node) := by
  simp [propose, hl]

/-! ## Sequences of proposals -/

/-- The results of a sequence of proposals and the node it leaves behind. -/
def proposeAll : RaftNode → List Command → List (Result Unit) × RaftNode
  | node, [] => ([], node)
  | node, c :: cs =>
    let rest := (node.propose c).2.proposeAll cs
    ((node.propose c).1 :: rest.1, rest.2)

/-- The log rebuilds the state, without a single rejection. -/
def Replayable (node : RaftNode) : Prop := Fsm.new.replay node.log = .ok node.fsm

theorem Replayable.propose {node : RaftNode} (h : node.Replayable) (c : Command) :
    (node.propose c).2.Replayable := by
  rcases node.propose_cases c with ⟨_, hc, hp⟩ | ⟨_, e, hp⟩
  · have hstep : node.fsm.apply c = (.ok (), ⟨node.state.applied c⟩) := by
      rcases node.fsm.apply_cases c with ⟨_, ha⟩ | ⟨hn, _⟩
      · exact ha
      · exact absurd hc hn
    rw [hp]
    have happ := Fsm.replay_append .new node.log [c]
    rw [show Fsm.new.replay node.log = .ok node.fsm from h] at happ
    rw [Replayable, log_committed, happ]
    change node.fsm.replay [c] = _
    simp only [Fsm.replay, hstep]
    rfl
  · rw [hp]
    exact h

theorem Replayable.proposeAll {node : RaftNode} (h : node.Replayable) (cs : List Command) :
    (node.proposeAll cs).2.Replayable := by
  induction cs generalizing node with
  | nil => exact h
  | cons c cs ih => exact ih (h.propose c)

theorem committedIndex_propose (node : RaftNode) (c : Command) :
    (node.propose c).2.committedIndex =
      node.committedIndex + if (node.propose c).1.isOk then 1 else 0 := by
  rcases node.propose_cases c with ⟨_, _, h⟩ | ⟨_, e, h⟩
  · simp [h, committedIndex, committed, Except.isOk, Except.toBool]
  · simp [h, Except.isOk, Except.toBool]

theorem committedIndex_proposeAll (node : RaftNode) (cs : List Command) :
    (node.proposeAll cs).2.committedIndex =
      node.committedIndex + (node.proposeAll cs).1.countP Except.isOk := by
  induction cs generalizing node with
  | nil => rfl
  | cons c cs ih =>
      simp only [proposeAll, List.countP_cons]
      rw [ih, committedIndex_propose]
      omega

theorem proposeAll_of_not_leader {node : RaftNode} (hl : node.isLeader = false)
    (cs : List Command) : (node.proposeAll cs).2 = node ∧
      ∀ r ∈ (node.proposeAll cs).1, r.isOk = false := by
  induction cs with
  | nil => simp [proposeAll]
  | cons c cs ih =>
      simp only [proposeAll, propose_of_not_leader hl, List.forall_mem_cons]
      exact ⟨ih.1, rfl, ih.2⟩

/-- The log is exactly the replayable history of the state: after any sequence of proposals to a
bootstrap leader the log rebuilds the state, its length counts the accepted proposals, and a
further proposal that fails changes nothing. A follower rejects every proposal unchanged. -/
theorem log_replays_to_state (id : String) (cs : List Command) :
    let node := ((bootstrap id).proposeAll cs).2
    Fsm.new.replay node.log = .ok node.fsm ∧
      node.committedIndex = ((bootstrap id).proposeAll cs).1.countP Except.isOk ∧
      (∀ c e, (node.propose c).1 = .error e → (node.propose c).2 = node) ∧
      ((new id).proposeAll cs).2 = new id ∧
      ∀ r ∈ ((new id).proposeAll cs).1, r.isOk = false := by
  have hcount := committedIndex_proposeAll (bootstrap id) cs
  rw [show (bootstrap id).committedIndex = 0 from rfl, Nat.zero_add] at hcount
  have hboot : (bootstrap id).Replayable := rfl
  exact ⟨hboot.proposeAll cs, hcount, fun _ _ => propose_error, proposeAll_of_not_leader rfl cs⟩

/-- A job, another one without a name, and a node are proposed to a leader. -/
theorem log_replays_to_state_nameless :
    let proposed := (bootstrap "server-1").proposeAll
      [.upsertJob (webJob 1), .upsertJob { webJob 1 with name := "" }, .upsertNode oneNode]
    proposed.1.map Except.isOk = [true, false, true] ∧ proposed.2.committedIndex = 2 ∧
      Fsm.new.replay proposed.2.log = .ok proposed.2.fsm ∧
      proposed.2.state.getJob "web" = some (webJob 1) :=
  ⟨by decide, (log_replays_to_state "server-1" _).2.1, (log_replays_to_state "server-1" _).1,
    by decide⟩

end RaftNode
end NomadRs
