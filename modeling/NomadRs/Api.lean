import NomadRs.Driver
import NomadRs.State

/-!
# The HTTP API

`HttpApi.handle` routes a request by its method and path. The name of a job is what remains of the
path when the route's prefix is trimmed off its front, but trimming takes off every copy of the
prefix: a job whose name begins with one cannot be asked for (`job_retrievable_iff`).
-/

namespace NomadRs

/-! ## Trimming -/

section Trimming
variable {α : Type} [DecidableEq α]

/-- `str::trim_start_matches`: all the prefixes equal to the pattern are taken off. -/
def trimStartMatches (pattern s : List α) : List α :=
  if _h : pattern ≠ [] ∧ pattern <+: s then trimStartMatches pattern (s.drop pattern.length) else s
termination_by s.length
decreasing_by
  have hpattern := List.length_pos_iff.2 _h.1
  have hle := _h.2.length_le
  rw [List.length_drop]
  omega

variable {pattern s : List α}

theorem trimStartMatches_append (hpattern : pattern ≠ []) (s : List α) :
    trimStartMatches pattern (pattern ++ s) = trimStartMatches pattern s := by
  rw [trimStartMatches, dif_pos ⟨hpattern, List.prefix_append _ _⟩, List.drop_left]

theorem trimStartMatches_eq_self (h : ¬ pattern <+: s) : trimStartMatches pattern s = s := by
  rw [trimStartMatches, dif_neg fun hp => h hp.2]

theorem length_trimStartMatches_le (pattern s : List α) :
    (trimStartMatches pattern s).length ≤ s.length := by
  induction s using trimStartMatches.induct pattern with
  | case1 s h ih =>
      rw [trimStartMatches, dif_pos h]
      exact ih.trans (by rw [List.length_drop]; exact Nat.sub_le _ _)
  | case2 s h => rw [trimStartMatches, dif_neg h]

theorem trimStartMatches_ne (hpattern : pattern ≠ []) (h : pattern <+: s) :
    trimStartMatches pattern s ≠ s := by
  intro heq
  obtain ⟨rest, rfl⟩ := h
  have hle := length_trimStartMatches_le pattern rest
  rw [trimStartMatches_append hpattern] at heq
  have hlen := List.length_pos_iff.2 hpattern
  rw [heq, List.length_append] at hle
  omega

end Trimming

/-! ## Requests and responses -/

inductive Method
  | get | post | put | delete
  deriving DecidableEq

structure ApiRequest where
  method : Method
  path : String
  body : Option String

structure ApiResponse where
  status : ℕ
  body : String
  deriving DecidableEq

inductive ApiBody
  | job (job : Job)
  | jobs (jobs : List Job)
  | evals (evals : List Evaluation)
  | allocs (allocs : List Allocation)
  | nodes (nodes : List Node)
  | value (value : JsonValue)

/-- `serde_json` at the bodies. A job can be serialized, and its text has its name in it. -/
structure ApiJson where
  toString : ApiBody → Except String String
  display : JsonValue → String
  exists_text : ∀ job, ∃ text, toString (.job job) = .ok text
  name_eq : ∀ {job job' text}, toString (.job job) = .ok text →
    toString (.job job') = .ok text → job.name = job'.name

namespace ApiResponse
variable (json : ApiJson)

def ok (body : ApiBody) : ApiResponse :=
  { status := 200, body := (json.toString body).toOption.getD "\x7b\x7d" }

def errorBody (message : String) : String := json.display (.object [("error", .string message)])

def badRequest (message : String) : ApiResponse :=
  { status := 400, body := errorBody json message }

def notFound : ApiResponse := { status := 404, body := errorBody json "not found" }

end ApiResponse

def StateStore.listJobs (self : StateStore) : List Job := self.jobs.values

def StateStore.listEvals (self : StateStore) : List Evaluation := self.evals.values

structure HttpApi where
  state : Option StateStore

namespace HttpApi
variable (json : ApiJson)

def jobRoute : String := "/v1/job/"

def handleList (self : HttpApi) (list : StateStore → ApiBody) : Result ApiResponse :=
  match self.state with
  | some state => .ok (.ok json (list state))
  | none => .ok (.ok json (.value (.array [])))

def handleListJobs (self : HttpApi) : Result ApiResponse := self.handleList json (.jobs ·.listJobs)

def handleGetJob (self : HttpApi) (name : String) : Result ApiResponse :=
  if name.isEmpty then .ok (.badRequest json "job name is required")
  else
    match self.state with
    | some state =>
      match state.getJob name with
      | some job => .ok (.ok json (.job job))
      | none => .ok (.notFound json)
    | none => .ok (.notFound json)

def handleListEvals (self : HttpApi) : Result ApiResponse :=
  self.handleList json (.evals ·.listEvals)

def handleListAllocs (self : HttpApi) : Result ApiResponse :=
  self.handleList json (.allocs ·.listAllocs)

def handleListNodes (self : HttpApi) : Result ApiResponse :=
  self.handleList json (.nodes ·.listNodes)

def version : JsonValue := .string "0.1.0"

def handleFixed (value : JsonValue) : Result ApiResponse := .ok (.ok json (.value value))

def handleAgentHealth : Result ApiResponse :=
  handleFixed json (.object [("status", .string "running"), ("version", version)])

def handleAgentMembers : Result ApiResponse :=
  handleFixed json (.object [("members", .array []), ("serf", .string "alive")])

def handleAgentSelf : Result ApiResponse :=
  handleFixed json (.object [("config", .object []), ("version", version)])

def handleStatusLeader : Result ApiResponse :=
  handleFixed json (.object [("leader", .string "")])

def handleStatusPeers : Result ApiResponse := handleFixed json (.array [])

def handleOperatorRaftConfig : Result ApiResponse :=
  handleFixed json (.object [("servers", .array []), ("index", .number "0")])

/-- The routes are tried in the order of the source; the job route comes second. -/
def handle (self : HttpApi) (request : ApiRequest) : Result ApiResponse :=
  if request.method ≠ .get then .ok (.notFound json)
  else if request.path = "/v1/jobs" then self.handleListJobs json
  else if jobRoute.toList <+: request.path.toList then
    self.handleGetJob json
      (String.ofList (trimStartMatches jobRoute.toList request.path.toList))
  else
    match request.path with
    | "/v1/evaluations" => self.handleListEvals json
    | "/v1/allocations" => self.handleListAllocs json
    | "/v1/nodes" => self.handleListNodes json
    | "/v1/agent" => handleAgentHealth json
    | "/v1/agent/members" => handleAgentMembers json
    | "/v1/agent/self" => handleAgentSelf json
    | "/v1/status/leader" => handleStatusLeader json
    | "/v1/status/peers" => handleStatusPeers json
    | "/v1/operator/raft/configuration" => handleOperatorRaftConfig json
    | _ => .ok (.notFound json)

/-! ## Asking for a job -/

def getJobRequest (name : String) (body : Option String) : ApiRequest :=
  { method := .get, path := jobRoute ++ name, body }

/-- What is left of a name without the copies of the route at its front. -/
def trimmedName (name : String) : String :=
  String.ofList (trimStartMatches jobRoute.toList name.toList)

theorem jobRoute_ne_nil : jobRoute.toList ≠ [] := by decide

variable {json} {name : String} {body : Option String} {state : StateStore}

theorem handle_getJobRequest (self : HttpApi) :
    self.handle json (getJobRequest name body) = self.handleGetJob json (trimmedName name) := by
  have hpath : (getJobRequest name body).path.toList = jobRoute.toList ++ name.toList :=
    String.toList_append
  have hget : ¬ (getJobRequest name body).method ≠ .get := fun h => h rfl
  have hjobs : (getJobRequest name body).path ≠ "/v1/jobs" := by
    intro h
    have hprefix : jobRoute.toList <+: "/v1/jobs".toList := by
      rw [← h, hpath]
      exact List.prefix_append _ _
    revert hprefix
    decide
  rw [handle, if_neg hget, if_neg hjobs, hpath, if_pos (List.prefix_append _ _),
    trimStartMatches_append jobRoute_ne_nil, trimmedName]

theorem trimmedName_eq_self (h : ¬ jobRoute.toList <+: name.toList) : trimmedName name = name := by
  rw [trimmedName, trimStartMatches_eq_self h, String.ofList_toList]

theorem trimmedName_ne (h : jobRoute.toList <+: name.toList) : trimmedName name ≠ name := by
  intro heq
  refine trimStartMatches_ne jobRoute_ne_nil h ?_
  rw [← String.toList_ofList (l := trimStartMatches _ _)]
  exact congrArg String.toList heq

theorem handleGetJob_ok_iff {text : String} :
    (HttpApi.mk (some state)).handleGetJob json name = .ok ⟨200, text⟩ ↔
      name ≠ "" ∧ ∃ job, state.getJob name = some job ∧ json.toString (.job job) = .ok text := by
  unfold handleGetJob
  split
  next hempty => simp_all [ApiResponse.badRequest]
  next hnonempty =>
    have hname : name ≠ "" := by simpa using hnonempty
    cases hjob : state.getJob name with
    | none => simp [hjob, ApiResponse.notFound]
    | some job =>
        obtain ⟨text', htext⟩ := json.exists_text job
        simp [hjob, ApiResponse.ok, htext, Except.toOption, hname]

theorem handleGetJob_notFound_iff :
    (∃ response, response.status = 404 ∧
      (HttpApi.mk (some state)).handleGetJob json name = .ok response) ↔
      name ≠ "" ∧ state.getJob name = none := by
  unfold handleGetJob
  split
  next hempty => simp_all [ApiResponse.badRequest]
  next hnonempty =>
    have hname : name ≠ "" := by simpa using hnonempty
    cases hjob : state.getJob name <;> simp [hjob, ApiResponse.notFound, ApiResponse.ok, hname]

/-- The request for a name gives the text of the job that has it, or status 404 if none has, and
never the text of a job of another name. -/
@[mk_iff] structure Retrieves (json : ApiJson) (state : StateStore) (name : String)
    (body : Option String) : Prop where
  found : ∀ job, state.getJob name = some job → ∃ text, json.toString (.job job) = .ok text ∧
    (HttpApi.mk (some state)).handle json (getJobRequest name body) = .ok ⟨200, text⟩
  missing : state.getJob name = none → ∃ response, response.status = 404 ∧
    (HttpApi.mk (some state)).handle json (getJobRequest name body) = .ok response
  named : ∀ job text, json.toString (.job job) = .ok text →
    (HttpApi.mk (some state)).handle json (getJobRequest name body) = .ok ⟨200, text⟩ →
      job.name = name

theorem retrieves_iff_trimmed : Retrieves json state name body ↔
    (∀ job, state.getJob name = some job → ∃ text, json.toString (.job job) = .ok text ∧
      trimmedName name ≠ "" ∧ ∃ job', state.getJob (trimmedName name) = some job' ∧
        json.toString (.job job') = .ok text) ∧
    (state.getJob name = none → trimmedName name ≠ "" ∧ state.getJob (trimmedName name) = none) ∧
    ∀ job text, json.toString (.job job) = .ok text →
      (trimmedName name ≠ "" ∧ ∃ job', state.getJob (trimmedName name) = some job' ∧
        json.toString (.job job') = .ok text) → job.name = name := by
  simp only [retrieves_iff, handle_getJobRequest, handleGetJob_ok_iff, handleGetJob_notFound_iff]

/-- A request for a job gives the job that is meant, or says that there is none, exactly if the
name does not begin with the route, or neither it nor what trimming leaves of it is the name of a
job. -/
theorem job_retrievable_iff (json : ApiJson) {fsm : Fsm} (h : storeSystem.Reachable fsm)
    (name : String) (hname : name ≠ "") (body : Option String) :
    Retrieves json fsm.state name body ↔
    (¬ jobRoute.toList <+: name.toList ∨
      (fsm.state.getJob name = none ∧ trimmedName name ≠ "" ∧
        fsm.state.getJob (trimmedName name) = none)) := by
  have hkeyed := (fsm.wellFormed_of_reachable h).jobs
  rw [retrieves_iff_trimmed]
  by_cases hroute : jobRoute.toList <+: name.toList
  · rw [or_iff_right (not_not.2 hroute)]
    constructor
    · rintro ⟨hfound, hnone, -⟩
      cases hjob : fsm.state.getJob name with
      | none => exact ⟨rfl, hnone hjob⟩
      | some job =>
          obtain ⟨text, htext, -, job', hjob', htext'⟩ := hfound job hjob
          have hsame := json.name_eq htext htext'
          rw [(hkeyed _ _ hjob).1, (hkeyed _ _ hjob').1] at hsame
          exact absurd hsame.symm (trimmedName_ne hroute)
    · rintro ⟨hnone, hrest⟩
      refine ⟨fun job hjob => ?_, fun _ => hrest, fun job text _ hanswer => ?_⟩
      · rw [hnone] at hjob
        cases hjob
      · obtain ⟨-, job', hjob', -⟩ := hanswer
        rw [hrest.2] at hjob'
        cases hjob'
  · refine iff_of_true ?_ (.inl hroute)
    rw [trimmedName_eq_self hroute]
    refine ⟨fun job hjob => ?_, fun hjob => ⟨hname, hjob⟩, fun job text htext hanswer => ?_⟩
    · obtain ⟨text, htext⟩ := json.exists_text job
      exact ⟨text, htext, hname, job, hjob, htext⟩
    · obtain ⟨-, job', hjob', htext'⟩ := hanswer
      rw [json.name_eq htext htext']
      exact (hkeyed _ _ hjob').1

end HttpApi

/-! ## Jobs as text -/

namespace JobText

def quoteMark : Char := Char.ofNat 34
def backslash : Char := Char.ofNat 92

def escape (c : Char) : List Char :=
  if c = quoteMark ∨ c = backslash then [backslash, c] else [c]

def quoted (s : String) : List Char :=
  quoteMark :: (s.toList.flatMap escape ++ [quoteMark])

/-- The text of a job without task groups and metadata, from the end of its name on. -/
def behindName (job : Job) : List Char :=
  ",\"meta\":\x7b\x7d,\"datacenters\":[".toList ++
    ",".toList.intercalate (job.datacenters.map quoted) ++
    "],\"task_groups\":[],\"priority\":".toList ++ (toString job.priority).toList ++ "\x7d".toList

def ofJob (job : Job) : List Char := "\x7b\"name\":".toList ++ (quoted job.name ++ behindName job)

theorem quoteMark_ne_backslash : quoteMark ≠ backslash := by decide

theorem escaped_inj {a b rest rest' : List Char}
    (h : a.flatMap escape ++ quoteMark :: rest = b.flatMap escape ++ quoteMark :: rest') :
    a = b := by
  have hhead (c : Char) (l l' : List Char) : quoteMark :: l ≠ escape c ++ l' := by
    intro heq
    unfold escape at heq
    split at heq
    next => exact quoteMark_ne_backslash (List.cons.inj heq).1
    next hc => exact hc (.inl (List.cons.inj heq).1.symm)
  induction a generalizing b with
  | nil =>
      cases b with
      | nil => rfl
      | cons c b =>
          rw [List.flatMap_cons, List.append_assoc] at h
          exact absurd h (hhead c _ _)
  | cons c a ih =>
      cases b with
      | nil =>
          rw [List.flatMap_cons, List.append_assoc] at h
          exact absurd h.symm (hhead c _ _)
      | cons d b =>
          rw [List.flatMap_cons, List.flatMap_cons, List.append_assoc, List.append_assoc] at h
          by_cases hc : c = quoteMark ∨ c = backslash <;>
            by_cases hd : d = quoteMark ∨ d = backslash <;>
              simp only [escape, hc, hd, if_true, if_false, List.cons_append, List.nil_append,
                List.cons.injEq, true_and] at h
          · rw [h.1, ih h.2]
          · exact absurd (.inr h.1.symm) hd
          · exact absurd (.inr h.1) hc
          · rw [h.1, ih h.2]

theorem name_eq_of_ofJob {job job' : Job} (h : ofJob job = ofJob job') : job.name = job'.name := by
  have hrest := List.append_cancel_left h
  simp only [quoted, List.cons_append, List.append_assoc, List.nil_append] at hrest
  exact String.toList_injective (escaped_inj (List.cons.inj hrest).2)

end JobText

/-- `serde_json` at jobs without task groups and at error messages. -/
def ApiJson.sample : ApiJson where
  toString
    | .job job => .ok (String.ofList (JobText.ofJob job))
    | _ => .error "other body"
  display
    | .object [("error", .string message)] =>
      String.ofList ("\x7b\"error\":".toList ++ JobText.quoted message ++ "\x7d".toList)
    | _ => "null"
  exists_text job := ⟨_, rfl⟩
  name_eq h h' := by
    cases h
    exact JobText.name_eq_of_ofJob (String.ofList_injective (Except.ok.inj h').symm)

def bareJob (name : String) : Job :=
  { name, datacenters := ["dc1"], taskGroups := [], priority := 50 }

namespace HttpApi

def bareJobs (names : List String) : Fsm := Fsm.new.applyAll (names.map (.upsertJob ∘ bareJob))

theorem bareJobs_reachable (names : List String) : storeSystem.Reachable (bareJobs names) :=
  Fsm.reachable_applyAll (.start rfl) _

theorem job_retrievable_iff_web :
    Retrieves .sample (bareJobs ["web"]).state "web" none :=
  (job_retrievable_iff .sample (bareJobs_reachable ["web"]) "web" (by decide) none).2
    (.inl (by decide))

/-- The request for the job `/v1/job/web` gives the job `web`. -/
theorem other_job_returned : ¬ ∀ (json : ApiJson) (fsm : Fsm) (name : String)
    (body : Option String), storeSystem.Reachable fsm → name ≠ "" →
      Retrieves json fsm.state name body := by
  intro h
  have hroute : "/v1/job/web".toList = jobRoute.toList ++ "web".toList := by decide
  have hrest : trimmedName "/v1/job/web" = "web" := by
    rw [trimmedName, hroute, trimStartMatches_append jobRoute_ne_nil]
    exact trimmedName_eq_self (by decide)
  have hfound := (h .sample (bareJobs ["web", "/v1/job/web"]) "/v1/job/web" none
    (bareJobs_reachable _) (by decide)).found _ rfl
  rw [handle_getJobRequest, hrest] at hfound
  obtain ⟨text, htext, hanswer⟩ := hfound
  obtain ⟨-, job, hjob, htext'⟩ := handleGetJob_ok_iff.1 hanswer
  cases hjob
  exact absurd (ApiJson.sample.name_eq htext htext') (by decide)

end HttpApi
end NomadRs
