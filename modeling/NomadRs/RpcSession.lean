import NomadRs.RpcFrame
import NomadRs.Server
import NomadRs.Session

/-!
# RPC over TCP

`RpcClient.call` writes one frame and reads one, and `serve_conn` answers frame by frame until the
connection ends. All connections of an `RpcServer` share the endpoint, which shares its raft node
and queue with the scheduler workers.

A call whose connection breaks may have been carried out or not, and the client cannot tell. But
no request is carried out twice, and whatever was answered was carried out and is in the log.
-/

open LineFile ByteStream Session

namespace NomadRs

/-! ## Frames as messages -/

section Framing
variable {α : Type} (json : Json α)

/-- Where `read_frame` would wait for more bytes or report the end of the stream, the message is
not there yet. -/
def Json.read (r : Stream) : Outcome α × Stream :=
  match readFrame json r with
  | (.ok (some msg), r) => (.message msg, r)
  | (.ok none, r) | (.error (.io .unexpectedEof), r) => (.starved, r)
  | (.error _, r) => (.malformed, r)

def Json.emit (msg : α) : Option Bytes :=
  match writeFrame json [] msg with
  | (.ok (), bs) => some bs
  | (.error _, _) => none

variable {json}

theorem Json.emit_eq_some_iff {msg : α} {bs : Bytes} : json.emit msg = some bs ↔
    ∃ data, json.toVec msg = .ok data ∧ data.length ≤ maxFrame ∧ bs = frame data := by
  unfold emit
  constructor
  · intro h
    by_cases hfits : Fits json msg
    · obtain ⟨data, hd, hle⟩ := hfits
      rw [writeFrame_of_fits hd hle] at h
      exact ⟨data, hd, hle, (Option.some.inj h).symm⟩
    · obtain ⟨e, he⟩ := writeFrame_of_not_fits hfits []
      rw [he] at h
      cases h
  · rintro ⟨data, hd, hle, rfl⟩
    rw [writeFrame_of_fits hd hle, List.nil_append]

theorem Json.read_of_lt {r : Stream} (h : (bytes r).length < 4) :
    (json.read r).1 = .starved ∧ bytes (json.read r).2 = [] := by
  rw [read, readFrame_of_lt h]
  exact ⟨rfl, rfl⟩

variable (json) in
def Json.framing : Framing α where
  emit := json.emit
  read := json.read
  read_emit hbs hbytes := by
    obtain ⟨data, hd, hle, rfl⟩ := Json.emit_eq_some_iff.1 hbs
    obtain ⟨r', hrest, hread⟩ := readFrame_frame hle (json.fromSlice_toVec _ data hd) hbytes
    rw [Json.read, hread]
    exact ⟨rfl, hrest⟩
  read_part := by
    intro msg bs r hbs hpart hne
    obtain ⟨data, _, hle, rfl⟩ := Json.emit_eq_some_iff.1 hbs
    have hlt : (bytes r).length < (frame data).length :=
      lt_of_le_of_ne hpart.length_le fun he => hne (hpart.eq_of_length he)
    by_cases hshort : (bytes r).length < 4
    · exact Json.read_of_lt hshort
    · rw [Json.read, readFrame_cut hle (not_lt.1 hshort) hlt (List.prefix_iff_eq_take.1 hpart)]
      exact ⟨rfl, rfl⟩
  read_nil h := Json.read_of_lt (by simp [h])

end Framing

open Classical in
/-- `serde_json` at one message; what it does with others is left out. -/
noncomputable def Json.only {α : Type} (msg : α) (text : Bytes) : Json α where
  toVec m := if m = msg then .ok text else .error "other message"
  fromSlice data := if data = text then .ok msg else .error "expected value"
  fromSlice_toVec m data h := by
    split_ifs at h with hm
    cases h
    rw [if_pos rfl, hm]

theorem Json.emit_only {α : Type} (msg : α) {text : Bytes} (h : text.length ≤ maxFrame) :
    (Json.only msg text).framing.emit msg = some (frame text) :=
  Json.emit_eq_some_iff.2 ⟨text, if_pos rfl, h, rfl⟩

noncomputable def ackJson : Json Response := .only .ack (asciiBytes "\"Ack\"")

/-! ## One connection, served on its own -/

section Serve
variable {σ α β : Type} (requests : Json α) (responses : Json β) (handle : σ → α → Result β × σ)
  (room : ℕ)

/-- `serve_conn` on what the peer sends: the state of the endpoint afterwards and what has been
written behind `w`. Writing fails once the transport has taken `room` bytes. -/
def serveConn (s : σ) (r : Stream) (w : Bytes) : σ × Bytes :=
  match h : readFrame requests r with
  | (.ok (some req), r') =>
    match handle s req with
    | (.error _, s) => (s, w)
    | (.ok resp, s) =>
      match writeFrame responses w resp with
      | (.error _, w) => (s, w)
      | (.ok _, w) =>
        have := readFrame_shrinks h
        if w.length ≤ room then serveConn s r' w else (s, w.take room)
  | _ => (s, w)
termination_by (bytes r).length

def serveAll : σ → List α → Bytes → σ × Bytes
  | s, [], w => (s, w)
  | s, req :: reqs, w =>
    match handle s req with
    | (.error _, s) => (s, w)
    | (.ok resp, s) =>
      match writeFrame responses w resp with
      | (.error _, w) => (s, w)
      | (.ok _, w) => if w.length ≤ room then serveAll s reqs w else (s, w.take room)

theorem serveConn_eq_serveAll (s : σ) (r : Stream) (w : Bytes) :
    serveConn requests responses handle room s r w =
      serveAll responses handle room s (readAll requests r).1 w := by
  fun_induction serveConn requests responses handle room s r w with
  | case1 s r w req r' hread e s' hhandle =>
      rw [readAll_of_some hread, serveAll, hhandle]
  | case2 s r w req r' hread resp s' hhandle e w' hwrite =>
      rw [readAll_of_some hread, serveAll, hhandle]
      simp only [hwrite]
  | case3 s r w req r' hread resp s' hhandle u w' hwrite _ hroom ih =>
      rw [readAll_of_some hread, serveAll, hhandle]
      simp only [hwrite, if_pos hroom]
      exact ih
  | case4 s r w req r' hread resp s' hhandle u w' hwrite _ hroom =>
      rw [readAll_of_some hread, serveAll, hhandle]
      simp only [hwrite, if_neg hroom]
  | case5 s r w hne =>
      rcases hread : readFrame requests r with ⟨_ | _ | req, r'⟩
      · rw [readAll_of_error hread, serveAll]
      · rw [readAll_of_none hread, serveAll]
      · exact absurd hread (hne req r')

variable {requests}

/-- From a stream cut short the messages are read whose frames have arrived whole. -/
theorem readAll_take {msgs : List α} {k : ℕ} {r : Stream}
    (hr : bytes r = (writeFrames requests msgs).take k) :
    ∃ whole, whole <+: msgs ∧ (∀ sent, sent <+: msgs → ((writeFrames requests sent).length ≤ k ↔
        (writeFrames requests sent).length ≤ (writeFrames requests whole).length)) ∧
      (readAll requests r).1 = whole.filter fun msg => Fits requests msg := by
  by_cases hk : k < (writeFrames requests msgs).length
  · obtain ⟨before, data, j, hcut⟩ := exists_cutAt hk
    have hlt := hcut.lt
    rw [hcut.take, writeFrames_eq] at hr
    obtain ⟨r', htail, hall⟩ := readAll_emitted_append before hr
    have hnone : (readAll requests r').1 = [] := by
      by_cases hj : j < 4
      · rw [readAll_of_none (readFrame_of_lt (by rw [htail, List.length_take]; omega))]
      · rw [readAll_of_error (readFrame_cut hcut.fits (by omega)
          (by rw [length_frame]; omega) htail)]
    refine ⟨before, hcut.sent, fun sent hsent => ?_, by rw [hall, hnone, List.append_nil]⟩
    have := hcut.frames sent hsent
    have := hcut.eq
    omega
  · rw [List.take_of_length_le (not_lt.1 hk)] at hr
    refine ⟨msgs, List.prefix_rfl, fun sent hsent => ?_, by rw [readAll_writeFrames msgs hr]⟩
    obtain ⟨more, rfl⟩ := hsent
    rw [writeFrames_append, List.length_append] at hk ⊢
    exact iff_of_true (by omega) (by omega)

/-- Of what a client wrote before its connection broke, anywhere, `serve_conn` carries out the
requests whose frames arrived whole, each once and in order until one fails, and no others. -/
theorem serve_conn_whole_frames (s : σ) (w : Bytes) (msgs : List α) (k : ℕ) (r : Stream)
    (hr : bytes r = (writeFrames requests msgs).take k) :
    ∃ whole, whole <+: msgs ∧ (∀ sent, sent <+: msgs → ((writeFrames requests sent).length ≤ k ↔
        (writeFrames requests sent).length ≤ (writeFrames requests whole).length)) ∧
      serveConn requests responses handle room s r w =
        serveAll responses handle room s (whole.filter fun msg => Fits requests msg) w := by
  obtain ⟨whole, hwhole, hlongest, hread⟩ := readAll_take hr
  refine ⟨whole, hwhole, hlongest, ?_⟩
  rw [serveConn_eq_serveAll, hread]

end Serve

theorem serve_conn_whole_frames_x : ∃ whole, whole <+: [xRequest] ∧
    serveConn Json.sample ackJson (fun self req => self.handle 0 0 req) 100
        (⟨.new, .bootstrap "server-1"⟩ : RpcEndpoint) xChunks [] =
      serveAll ackJson (fun self req => self.handle 0 0 req) 100 ⟨.new, .bootstrap "server-1"⟩
        (whole.filter fun msg => Fits Json.sample msg) [] := by
  have hbytes : bytes xChunks = (writeFrames Json.sample [xRequest]).take 25 := by decide +kernel
  obtain ⟨whole, hwhole, _, hserve⟩ := serve_conn_whole_frames ackJson
    (fun (self : RpcEndpoint) req => self.handle 0 0 req) 100 ⟨.new, .bootstrap "server-1"⟩ []
    [xRequest] 25 xChunks hbytes
  exact ⟨whole, hwhole, hserve⟩

/-! ## The endpoint as a service -/

section Service
variable (F : Type) [F64 F] [Crates]

/-- A connection's task takes the two halves of a request, each under its lock. What else happens
to the server is any of its events that is not a request. -/
def rpcService : Service Server Request Response FollowUp where
  begins s request result s' :=
    s' = { s with raft := (request.begin s.raft).2 } ∧
    result = match (request.begin s.raft).1 with
      | .ok half => some half
      | .error _ => none
  finishes s followUp response s' := ∃ nanos now,
    response = (followUp.run s.queue nanos now).1 ∧
    s' = { s with queue := (followUp.run s.queue nanos now).2 }
  others s s' := ∃ event, (∀ request, event ≠ .begin request) ∧ Server.Step F s event s'

variable (requests : Json Request) (responses : Json Response)

/-- An `RpcServer` over the endpoint of a new server, with any number of clients. -/
def rpcNetwork (nodeName : String) :
    System (Network Server ℕ Request Response FollowUp) (Option ℕ) :=
  network requests.framing responses.framing (rpcService F) (Server.new nodeName)

end Service

/-! ## What the log says -/

def Command.isUpsertAlloc : Command → Bool
  | .upsertAlloc _ => true
  | _ => false

def written : Request × Option (Response ⊕ FollowUp) → Option Command
  | (request, some (.inr _)) => request.command
  | _ => none

/-- Apart from the placements the log is what the requests wrote, in the order of the lock. -/
structure LogOf (s : Server) (begun : List (Request × Option (Response ⊕ FollowUp))) : Prop where
  leads : s.raft.isLeader = true
  log : s.raft.log.filter (fun c => !c.isUpsertAlloc) = begun.filterMap written

/-- The response is of the request's kind. -/
def Request.AnsweredBy : Request → Response → Prop
  | .jobRegister job, .jobRegistered evalId =>
      job.validate = .ok () ∧ ∃ nanos, evalId = evalIdFor job.name nanos
  | .jobDeregister _, .ack | .nodeRegister _, .ack | .evalDequeue _, .eval _ => True
  | _, _ => False

theorem Request.isUpsertAlloc_command {request : Request} {c : Command}
    (h : request.command = some c) : c.isUpsertAlloc = false := by
  cases request <;> cases h <;> rfl

theorem Request.begin_ne_inl {raft : RaftNode} (hleads : raft.isLeader = true) (request : Request)
    (response : Response) : (request.begin raft).1 ≠ .ok (.inl response) := by
  intro h
  unfold Request.begin at h
  split at h
  · cases h
  · split at h
    · cases h
    next command _ =>
      unfold commit at h
      rw [hleads] at h
      rcases hp : raft.propose command with ⟨_ | _, raft'⟩ <;> simp [hp] at h

theorem Request.answeredBy {request : Request} {s : StateStore}
    (haccepts : ∀ c, request.command = some c → s.Accepts c) (q : EvalQueue) (nanos : Nat)
    (now : Instant) : request.AnsweredBy (request.followUp.run q nanos now).1 := by
  cases request with
  | jobRegister job => exact ⟨haccepts _ rfl, nanos, rfl⟩
  | _ => trivial

section Log
variable {F : Type} [F64 F] [Crates] {s s' : Server}

theorem Server.Step.log {event : ServerEvent} (hstep : Server.Step F s event s')
    (hevent : ∀ request, event ≠ .begin request) :
    s'.raft.isLeader = s.raft.isLeader ∧
      ∃ as : List Allocation, s'.raft.log = s.raft.log ++ as.map .upsertAlloc := by
  cases hstep with
  | next hnext =>
      rcases Server.next_raft hnext with hraft | ⟨i, clock, now, eval, plan, _, _, hraft⟩ | h
      · rw [hraft]
        exact ⟨rfl, [], by simp⟩
      · obtain ⟨done, rest, _, hcommit, _⟩ := commitPlan_spec s.raft plan.allocs
        rw [hraft, hcommit]
        exact ⟨rfl, done, rfl⟩
      · obtain ⟨request, c, rfl, _⟩ := h
        exact absurd rfl (hevent request)
  | relayout => exact ⟨rfl, [], by simp⟩

theorem LogOf.keeps : (rpcService F).Keeps LogOf where
  begins := by
    rintro s begun request result _ ⟨hleads, hlog⟩ ⟨rfl, rfl⟩
    rcases request.begin_cases s.raft with ⟨c, hc, _, hbegin⟩ | ⟨hc, hbegin⟩ | ⟨hend, hraft⟩
    · refine ⟨by rw [hbegin]; exact hleads, ?_⟩
      simp only [hbegin, RaftNode.log_committed, List.filter_append, hlog, List.filterMap_append]
      simp [written, hc, Request.isUpsertAlloc_command hc]
    · refine ⟨by rw [hbegin]; exact hleads, ?_⟩
      simp [hbegin, hlog, written, hc]
    · refine ⟨by rw [hraft]; exact hleads, ?_⟩
      rw [hraft, hlog, List.filterMap_append]
      cases hres : (request.begin s.raft).1 with
      | error e => simp [written]
      | ok half =>
          cases half with
          | inl response => simp [written]
          | inr followUp => exact absurd hres (hend followUp)
  finishes := by
    rintro s begun followUp response _ ⟨hleads, hlog⟩ ⟨nanos, now, _, rfl⟩
    exact ⟨hleads, hlog⟩
  others := by
    rintro s begun s' ⟨hleads, hlog⟩ ⟨event, hevent, hstep⟩
    obtain ⟨hleader, as, has⟩ := hstep.log hevent
    refine ⟨hleader.trans hleads, ?_⟩
    rw [has, List.filter_append, hlog]
    simp [Command.isUpsertAlloc]

def Logged (s : Server) (request : Request) : Prop :=
  ∀ c, request.command = some c → c ∈ s.raft.log

theorem rpcService_log (h : (∃ request result, (rpcService F).begins s request result s') ∨
    (∃ followUp response, (rpcService F).finishes s followUp response s') ∨
      (rpcService F).others s s') :
    s'.raft.isLeader = s.raft.isLeader ∧ s.raft.log <+: s'.raft.log := by
  rcases h with ⟨request, result, rfl, _⟩ | ⟨followUp, response, nanos, now, _, rfl⟩ |
    ⟨event, hevent, hstep⟩
  · rcases request.begin_raft s.raft with hraft | ⟨c, _, _, hbegin⟩
    · simp only [hraft]
      exact ⟨trivial, List.prefix_rfl⟩
    · simp only [hbegin]
      exact ⟨rfl, List.prefix_append _ _⟩
  · exact ⟨rfl, List.prefix_rfl⟩
  · obtain ⟨hleader, as, has⟩ := hstep.log hevent
    exact ⟨hleader, has ▸ List.prefix_append _ _⟩

theorem rpcService_promises : (rpcService F).Promises (fun s => s.raft.isLeader = true)
    (fun s request followUp => followUp = request.followUp ∧ Logged s request ∧
      ∃ store : StateStore, ∀ c, request.command = some c → store.Accepts c)
    (fun s request response => request.AnsweredBy response ∧ Logged s request) where
  ends := by
    rintro s request response _ hleads ⟨rfl, hresult⟩
    split at hresult
    next half hbegin =>
      obtain rfl := Option.some.inj hresult
      exact absurd hbegin (request.begin_ne_inl hleads response)
    next => cases hresult
  leaves := by
    rintro s request task _ hleads ⟨rfl, hresult⟩
    rcases request.begin_cases s.raft with ⟨c, hc, hacc, hbegin⟩ | ⟨hc, hbegin⟩ | ⟨hend, _⟩
    · simp only [hbegin, Option.some.injEq, Sum.inr.injEq] at hresult
      refine ⟨hresult, fun c' hc' => ?_, s.raft.state, fun c' hc' => ?_⟩
      · obtain rfl := Option.some.inj (hc.symm.trans hc')
        simp [hbegin]
      · obtain rfl := Option.some.inj (hc.symm.trans hc')
        exact hacc
    · simp only [hbegin, Option.some.injEq, Sum.inr.injEq] at hresult
      exact ⟨hresult, by simp [Logged, hc], s.raft.state, by simp [hc]⟩
    · split at hresult
      next half hbegin =>
        obtain rfl := Option.some.inj hresult
        exact absurd hbegin (hend task)
      next => cases hresult
  finishes := by
    rintro s request followUp response _ ⟨rfl, hlogged, store, haccepts⟩ ⟨nanos, now, rfl, rfl⟩
    exact ⟨Request.answeredBy haccepts s.queue nanos now, hlogged⟩
  keeps := by
    intro s s' hleads hmoves
    obtain ⟨hleader, hlog⟩ := rpcService_log hmoves
    have hlogged : ∀ request, Logged s request → Logged s' request :=
      fun request h c hc => hlog.subset (h c hc)
    exact ⟨hleader.trans hleads, fun _ _ h => ⟨h.1, hlogged _ h.2.1, h.2.2⟩,
      fun _ _ h => ⟨h.1, hlogged _ h.2⟩⟩

/-! ## Calls over the network -/

variable {requests : Json Request} {responses : Json Response} {nodeName : String}
  {net : Network Server ℕ Request Response FollowUp}

/-- Whatever the clients send and wherever connections break, the requests of a connection are
handled in the order sent and at most once each, every answer is the result of the client's own
request, no more than one call is without an answer, and neither end reads anything malformed. -/
theorem rpc_calls_in_order (h : (rpcNetwork F requests responses nodeName).Reachable net) (i : ℕ) :
    ((net.conns i).handled.map Prod.fst ++ (net.conns i).server.current <+: (net.conns i).sent ∧
      (net.conns i).answers.map some <+: (net.conns i).handled.map Prod.snd ∧
      (net.conns i).sent.length ≤ (net.conns i).answers.length + 1) ∧
    ∀ r rest, ((net.conns i).toServer = bytes r ++ rest → (requests.read r).1 ≠ .malformed) ∧
      ((net.conns i).toClient = bytes r ++ rest → (responses.read r).1 ≠ .malformed) :=
  ⟨(Network.sound h i).in_order, fun _ _ => (Network.sound h i).not_malformed⟩

/-- Apart from the placements the log holds each request that was carried out once, in the order
the raft lock was taken, on each connection a part of what was sent there. Every answer is of its
request's kind, and what was answered is in the log for good. -/
theorem rpc_writes_logged_once (h : (rpcNetwork F requests responses nodeName).Reachable net) :
    net.service.raft.log.filter (fun c => !c.isUpsertAlloc) =
      net.begun.filterMap (fun b => written b.2) ∧
    ∀ i, (net.begun.filter (·.1 = i)).map (·.2.1) <+: (net.conns i).sent ∧
      ∀ (k : ℕ) request response, (net.conns i).sent[k]? = some request →
        (net.conns i).answers[k]? = some response →
          request.AnsweredBy response ∧ Logged net.service request := by
  have hlog := (Network.keeps LogOf.keeps ⟨rfl, rfl⟩ h).log
  rw [List.filterMap_map] at hlog
  refine ⟨hlog, fun i => ⟨?_, fun k request response hrequest hresponse => ?_⟩⟩
  · rw [Network.begun_filter h i]
    exact (Network.sound h i).taken_of_sent
  · exact Network.answered rpcService_promises rfl h hrequest hresponse

end Log

/-! ## A client that registers a node -/

def registerText : Bytes :=
  asciiBytes "\x7b\"NodeRegister\":\x7b\"id\":\"node-1\",\"name\":\"node-1\"," ++
    asciiBytes "\"datacenter\":\"dc1\"," ++
    asciiBytes "\"node_class\":\"\",\"resources\":\x7b\"cpu_mhz\":1000,\"memory_mb\":1024," ++
    asciiBytes "\"network_mbps\":100\x7d,\"status\":\"Ready\",\"eligibility\":\"Eligible\"," ++
    asciiBytes "\"draining\":false,\"attributes\":\x7b\x7d,\"drivers\":\x7b\x7d\x7d\x7d"

noncomputable def registerJson : Json Request := .only (.nodeRegister oneNode) registerText

theorem exists_nodeRegistered (F : Type) [F64 F] [Crates] :
    ∃ net, (rpcNetwork F registerJson ackJson "server-1").Reachable net ∧
      (net.conns 0).sent[0]? = some (.nodeRegister oneNode) ∧
      (net.conns 0).answers[0]? = some .ack := by
  have hstart : (rpcNetwork F registerJson ackJson "server-1").Reachable
      { service := Server.new "server-1" } := .start rfl
  have hrequest : registerJson.framing.emit (.nodeRegister oneNode) = some (frame registerText) :=
    Json.emit_only _ (by decide +kernel)
  have hresponse : ackJson.framing.emit .ack = some (frame (asciiBytes "\"Ack\"")) :=
    Json.emit_only _ (by decide +kernel)
  have hbegins : (rpcService F).begins (Server.new "server-1") (.nodeRegister oneNode)
      (some (.inr .unblock)) _ := ⟨rfl, rfl⟩
  obtain ⟨c', hsteps, _, _, hsent, hanswers⟩ := (Network.sound hstart 0).call_steps rfl rfl hrequest
    hbegins ⟨0, 0, rfl, rfl⟩ hresponse
  obtain ⟨net, hnet, _, hconns⟩ := Network.exists_of_steps hstart (i := 0) hsteps
  refine ⟨net, hnet, ?_, ?_⟩
  · rw [hconns, Function.update_self, hsent]
    rfl
  · rw [hconns, Function.update_self, hanswers]
    rfl

attribute [local instance] Crates.literal

theorem rpc_calls_in_order_node :
    ∃ net, (rpcNetwork ℚ registerJson ackJson "server-1").Reachable net ∧
      (net.conns 0).answers[0]? = some .ack ∧ (net.conns 0).sent.length ≤
        (net.conns 0).answers.length + 1 := by
  obtain ⟨net, hnet, _, hanswer⟩ := exists_nodeRegistered ℚ
  exact ⟨net, hnet, hanswer, (rpc_calls_in_order hnet 0).1.2.2⟩

theorem rpc_writes_logged_once_node :
    ∃ net, (rpcNetwork ℚ registerJson ackJson "server-1").Reachable net ∧
      .upsertNode oneNode ∈ net.service.raft.log := by
  obtain ⟨net, hnet, hrequest, hanswer⟩ := exists_nodeRegistered ℚ
  exact ⟨net, hnet, (((rpc_writes_logged_once hnet).2 0).2 0 _ _ hrequest hanswer).2 _ rfl⟩

end NomadRs
