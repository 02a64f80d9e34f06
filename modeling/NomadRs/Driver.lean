import NomadRs.Jobspec

/-!
# The exec driver

Tasks run as child processes. `ExecDriver` keeps the children it has to be able to reach, by pid;
what becomes of the others is kept beside them. `Answers` are what the operating system says to the
calls that are made for one task in one operation.
-/

namespace NomadRs

/-- `serde_json::Value`; a number is kept as its text. -/
inductive JsonValue
  | null
  | bool (b : Bool)
  | number (text : String)
  | string (s : String)
  | array (values : List JsonValue)
  | object (members : List (String × JsonValue))

def JsonValue.asStr : JsonValue → Option String
  | .string s => some s
  | _ => none

/-- A task together with the configuration that its driver reads. -/
structure ConfiguredTask extends Task where
  config : HashMap String JsonValue

/-- The state of a task as reported by its driver. -/
inductive TaskState
  | pending | running | exited | failed | unknown
  deriving DecidableEq

structure TaskHandle where
  id : String
  state : TaskState

/-- A process: whether it has exited, and with success. -/
structure Child where
  exit : Option Bool := none
  deriving DecidableEq

/-- The answers of the operating system: a pid or an error for a new process, an error of
`try_wait`, and the result of `kill` with whether the process is alive after it. -/
structure Answers where
  spawn : String → List String → Result ℕ
  waitError : Option Error := none
  kill : Result Unit := .ok ()
  survives : Bool := false

/-- `dropped` is not part of the source: it holds the children that have left `running`. -/
structure ExecDriver where
  running : HashMap String Child := ∅
  dropped : List Child := []

namespace ExecDriver

def name : String := "exec"

def commandLine (task : ConfiguredTask) : Result (String × List String) := do
  let command ← match (task.config.lookup "command").bind JsonValue.asStr with
    | some command => .ok command
    | none => .error (.runtime "exec driver: missing `command` in task config")
  let args ← match task.config.lookup "args" with
    | none => .ok []
    | some (.array values) => values.mapM fun v =>
        match v.asStr with
        | some arg => .ok arg
        | none => .error (.runtime "exec driver: `args` entries must be strings")
    | some _ => .error (.runtime "exec driver: `args` must be an array")
  return (command, args)

def startTask (self : ExecDriver) (task : ConfiguredTask) (os : Answers) :
    Result TaskHandle × ExecDriver :=
  match commandLine task with
  | .error e => (.error e, self)
  | .ok (command, args) =>
    match os.spawn command args with
    | .error e => (.error e, self)
    | .ok pid =>
      let id := toString pid
      (.ok { id, state := .running },
        { running := self.running.insert id {}
          dropped := self.dropped ++ (self.running.lookup id).toList })

def stopTask (self : ExecDriver) (handle : TaskHandle) (os : Answers) : Result Unit × ExecDriver :=
  match self.running.lookup handle.id with
  | none => (.ok (), self)
  | some child =>
    let child := if os.survives then child else { exit := child.exit.or (some false) }
    (os.kill, { running := self.running.erase handle.id, dropped := self.dropped ++ [child] })

def inspectTask (self : ExecDriver) (handle : TaskHandle) (os : Answers) :
    Result TaskState × ExecDriver :=
  match self.running.lookup handle.id with
  | none => (.ok .exited, self)
  | some child =>
    match os.waitError, child.exit with
    | some e, _ => (.error e, self)
    | none, some success =>
      (.ok (if success then .exited else .failed),
        { running := self.running.erase handle.id, dropped := self.dropped ++ [child] })
    | none, none => (.ok .running, self)

def processExits (self : ExecDriver) (id : String) (success : Bool) : ExecDriver :=
  match self.running.lookup id with
  | some { exit := none } =>
    { self with running := self.running.insert id { exit := some success } }
  | _ => self

def children (self : ExecDriver) : List Child := self.running.values ++ self.dropped

def Alive (self : ExecDriver) : Prop := ∃ child ∈ self.children, child.exit = none

instance (self : ExecDriver) : Decidable self.Alive :=
  inferInstanceAs (Decidable (∃ child ∈ self.children, _))

/-- The processes that have left `running` have exited, and only one under the id is left there. -/
structure Tracks (d : ExecDriver) (id : Option String) : Prop where
  running : ∀ k child, d.running.lookup k = some child → id = some k
  dropped : ∀ child ∈ d.dropped, child.exit ≠ none

variable {d : ExecDriver} {id : Option String} {handle : TaskHandle}

theorem Tracks.new : Tracks {} id := ⟨by simp, by simp⟩

theorem Tracks.alive_iff (h : d.Tracks id) :
    d.Alive ↔ ∃ k, id = some k ∧ d.running.lookup k = some { exit := none } := by
  constructor
  · rintro ⟨child, hmem, hexit⟩
    rcases List.mem_append.1 hmem with hmem | hmem
    · obtain ⟨k, hk⟩ := HashMap.mem_values_iff.1 hmem
      obtain rfl : child = { exit := none } := congrArg Child.mk hexit
      exact ⟨k, h.running k _ hk, hk⟩
    · exact absurd hexit (h.dropped child hmem)
  · rintro ⟨k, _, hk⟩
    exact ⟨_, List.mem_append_left _ (HashMap.mem_values_of_lookup hk), rfl⟩

theorem Tracks.not_alive (h : d.Tracks none) : ¬ d.Alive := by
  rw [h.alive_iff]
  rintro ⟨k, hk, _⟩
  cases hk

theorem startTask_ok {task : ConfiguredTask} {os : Answers} (h : d.Tracks none)
    (hstart : (d.startTask task os).1 = .ok handle) :
    (d.startTask task os).2.Tracks (some handle.id) ∧ handle.state = .running := by
  have hempty (k : String) : d.running.lookup k = none := by
    cases hk : d.running.lookup k with
    | none => rfl
    | some child => cases h.running k child hk
  unfold startTask at hstart ⊢
  split at hstart
  · cases hstart
  · split at hstart
    · cases hstart
    · cases hstart
      simp only [hempty, Option.toList_none, List.append_nil, and_true]
      refine ⟨fun k child hk => ?_, h.dropped⟩
      rcases HashMap.lookup_insert_eq_some.1 hk with ⟨rfl, _⟩ | ⟨_, hk⟩
      · rfl
      · rw [hempty] at hk
        cases hk

theorem startTask_error {task : ConfiguredTask} {os : Answers} {e : Error}
    (hstart : (d.startTask task os).1 = .error e) : (d.startTask task os).2 = d := by
  unfold startTask at hstart ⊢
  split at hstart
  · rfl
  · split at hstart
    · rfl
    · cases hstart

theorem Tracks.erase (h : d.Tracks (some handle.id)) {child : Child}
    (hexit : child.exit ≠ none) : Tracks { running := d.running.erase handle.id
                                           dropped := d.dropped ++ [child] } none where
  running k child hk := by
    obtain ⟨hne, hk⟩ := HashMap.lookup_erase_eq_some.1 hk
    exact absurd (Option.some_inj.1 (h.running k child hk)) (Ne.symm hne)
  dropped := List.forall_mem_append.2 ⟨h.dropped, List.forall_mem_singleton.2 hexit⟩

theorem Tracks.mono (h : d.Tracks none) (id : Option String) : d.Tracks id :=
  ⟨fun k child hk => (Option.some_ne_none k (h.running k child hk).symm).elim, h.dropped⟩

theorem stopTask_tracks {os : Answers} (h : d.Tracks (some handle.id))
    (hkill : os.survives = false) : (d.stopTask handle os).2.Tracks none := by
  unfold stopTask
  split
  next hnone =>
    refine ⟨fun k child hk => ?_, h.dropped⟩
    rw [← Option.some_inj.1 (h.running k child hk), hnone] at hk
    cases hk
  next child _ =>
    refine h.erase ?_
    cases hexit : child.exit <;> simp [hkill]

theorem inspectTask_tracks (os : Answers) (h : d.Tracks (some handle.id)) :
    (d.inspectTask handle os).2.Tracks (some handle.id) ∧
    ((d.inspectTask handle os).2.Alive ↔ d.Alive) ∧
    ∀ st, (d.inspectTask handle os).1 = .ok st → st = .running ∨ ¬ d.Alive := by
  have hdead (hk : d.running.lookup handle.id ≠ some { exit := none }) : ¬ d.Alive := by
    rw [h.alive_iff]
    rintro ⟨k, hid, halive⟩
    cases hid
    exact hk halive
  unfold inspectTask
  split
  next hnone => exact ⟨h, Iff.rfl, fun _ _ => .inr (hdead (by simp [hnone]))⟩
  next child hchild =>
    split
    next => exact ⟨h, Iff.rfl, fun _ hst => by cases hst⟩
    next success hexit =>
      have hended : child.exit ≠ none := by simp [hexit]
      have hgone := h.erase hended
      have hover : ¬ d.Alive := hdead (by rw [hchild]; rintro ⟨⟩; cases hexit)
      exact ⟨hgone.mono _, iff_of_false hgone.not_alive hover, fun _ _ => .inr hover⟩
    next => exact ⟨h, Iff.rfl, fun _ hst => .inl (Except.ok.inj hst).symm⟩

theorem processExits_tracks (h : d.Tracks id) (k : String) (success : Bool) :
    (d.processExits k success).Tracks id ∧
      ((d.processExits k success).Alive → d.Alive) := by
  unfold processExits
  split
  next hk =>
    have hid := h.running k _ hk
    have halive : d.Alive := h.alive_iff.2 ⟨k, hid, hk⟩
    refine ⟨⟨fun k' child hk' => ?_, h.dropped⟩, fun _ => halive⟩
    rcases HashMap.lookup_insert_eq_some.1 hk' with ⟨rfl, _⟩ | ⟨_, hk'⟩
    · exact hid
    · exact h.running k' child hk'
  next => exact ⟨h, fun halive => halive⟩

end ExecDriver
end NomadRs
