import NomadRs.ByteStream
import NomadRs.Transition

/-!
# Calls over byte streams

Clients call a shared service, each over a connection of its own. A `Framing` turns messages into
bytes and back; a `Service` handles a request in one step or in two. A connection may break at any
moment, and what is under way on it is then lost from some byte on.

Whatever the interleaving, `Conn.Sound` holds of every connection: the service handles the requests
in the order they were sent, each at most once, and a client is answered with what handling its own
request gave. `Network.answered` carries what a service promises with an answer over to all later
states.
-/

open LineFile ByteStream

namespace Session

/-! ## Framing -/

inductive Outcome (α : Type*)
  | message (msg : α)
  /-- The bytes end inside a message. -/
  | starved
  | malformed

/-- Messages as bytes. `emit` may refuse a message. -/
structure Framing (α : Type*) where
  emit : α → Option Bytes
  read : Stream → Outcome α × Stream
  read_emit : ∀ {msg bs rest r}, emit msg = some bs → bytes r = bs ++ rest →
    (read r).1 = .message msg ∧ bytes (read r).2 = rest
  read_part : ∀ {msg bs r}, emit msg = some bs → bytes r <+: bs → bytes r ≠ bs →
    (read r).1 = .starved ∧ bytes (read r).2 = []
  read_nil : ∀ {r}, bytes r = [] → (read r).1 = .starved ∧ bytes (read r).2 = []

namespace Framing
variable {α : Type*} (F : Framing α)

def wire (msgs : List α) : Bytes := msgs.flatMap fun msg => (F.emit msg).getD []

@[simp] theorem wire_nil : F.wire [] = [] := rfl

theorem wire_append (msgs more : List α) : F.wire (msgs ++ more) = F.wire msgs ++ F.wire more :=
  List.flatMap_append

theorem wire_singleton {msg : α} {bs : Bytes} (h : F.emit msg = some bs) : F.wire [msg] = bs := by
  simp [wire, h]

theorem exists_chunks {msg : α} {bs : Bytes} (h : F.emit msg = some bs) :
    ∃ r, bytes r = bs ∧ (F.read r).1 = .message msg := by
  by_cases hne : bs = []
  · have hnone : bytes [] = bs ++ [] := by rw [hne]; rfl
    obtain ⟨hmsg, _⟩ := F.read_emit h hnone
    exact ⟨[], hne.symm, hmsg⟩
  · have hbytes : bytes [⟨bs, hne⟩] = bs ++ [] := rfl
    exact ⟨[⟨bs, hne⟩], hbytes.trans (List.append_nil bs), (F.read_emit h hbytes).1⟩

/-- Messages that were sent and may be cut short on the way: whole ones as long as the connection
is intact. -/
structure Carries (intact : Bool) (msgs : List α) (bs : Bytes) : Prop where
  emitted : ∀ msg ∈ msgs, F.emit msg ≠ none
  part : bs <+: F.wire msgs
  whole : intact = true → bs = F.wire msgs

variable {F} {intact : Bool} {msgs : List α} {bs : Bytes}

theorem Carries.nil : F.Carries intact [] [] := ⟨by simp, List.prefix_rfl, fun _ => rfl⟩

theorem Carries.broken (h : F.Carries intact msgs bs) (n : ℕ) :
    F.Carries false msgs (bs.take n) :=
  ⟨h.emitted, (List.take_prefix n bs).trans h.part, nofun⟩

theorem Carries.push (h : F.Carries true msgs bs) {msg : α} {more : Bytes}
    (hmsg : F.emit msg = some more) : F.Carries true (msgs ++ [msg]) (bs ++ more) := by
  have hwire : bs ++ more = F.wire (msgs ++ [msg]) := by
    rw [F.wire_append, F.wire_singleton hmsg, h.whole rfl]
  refine ⟨?_, hwire ▸ List.prefix_rfl, fun _ => hwire⟩
  intro m hm
  rcases List.mem_append.1 hm with hm | hm
  · exact h.emitted m hm
  · rw [List.mem_singleton.1 hm, hmsg]
    exact Option.some_ne_none more

/-- A read of what was sent takes off the first message, or lacks bytes of it. -/
theorem Carries.read {r : Stream} {rest : Bytes} (h : F.Carries intact msgs (bytes r ++ rest)) :
    (∃ msg left, msgs = msg :: left ∧ (F.read r).1 = .message msg ∧
      F.Carries intact left (bytes (F.read r).2 ++ rest)) ∨
    (F.read r).1 = .starved ∧ (rest = [] → bytes (F.read r).2 = []) := by
  cases msgs with
  | nil =>
      have hnil : bytes r ++ rest = [] := List.prefix_nil.1 h.part
      obtain ⟨hstarved, hleft⟩ := F.read_nil (List.append_eq_nil_iff.1 hnil).1
      exact .inr ⟨hstarved, fun _ => hleft⟩
  | cons msg left =>
      obtain ⟨bs, hbs⟩ := Option.ne_none_iff_exists'.1 (h.emitted msg List.mem_cons_self)
      have hwire : F.wire (msg :: left) = bs ++ F.wire left := by
        rw [← F.wire_singleton hbs, ← F.wire_append]
        rfl
      have hpart := h.part
      rw [hwire] at hpart
      by_cases hle : bs.length ≤ (bytes r).length
      · -- the whole message has arrived
        obtain ⟨more, hmore⟩ := List.prefix_of_prefix_length_le (List.prefix_append bs _)
          ((List.prefix_append _ rest).trans hpart) hle
        obtain ⟨hmsg, hrest⟩ := F.read_emit hbs hmore.symm
        have hcut : bytes r ++ rest = bs ++ (bytes (F.read r).2 ++ rest) := by
          rw [hrest, ← List.append_assoc, hmore]
        refine .inl ⟨msg, left, rfl, hmsg, ?_, ?_, ?_⟩
        · exact fun m hm => h.emitted m (List.mem_cons_of_mem _ hm)
        · rw [hcut] at hpart
          exact (List.prefix_append_right_inj bs).1 hpart
        · intro hi
          have hwhole := h.whole hi
          rw [hwire, hcut] at hwhole
          exact List.append_cancel_left hwhole
      · have hprefix : bytes r <+: bs :=
          List.prefix_of_prefix_length_le ((List.prefix_append _ rest).trans hpart)
            (List.prefix_append bs _) (by omega)
        have hne : bytes r ≠ bs := by
          intro he
          rw [he] at hle
          exact hle le_rfl
        obtain ⟨hstarved, hleft⟩ := F.read_part hbs hprefix hne
        exact .inr ⟨hstarved, fun _ => hleft⟩

end Framing

/-! ## Connections -/

/-- What handling a request can do: its first step fails, ends it or leaves a task, which its
second step carries out. `others` is what happens to the service besides. -/
structure Service (σ α β τ : Type*) where
  begins : σ → α → Option (β ⊕ τ) → σ → Prop
  finishes : σ → τ → β → σ → Prop
  others : σ → σ → Prop

inductive ServerPc (α β τ : Type*)
  | reading
  | begin (request : α)
  | finish (request : α) (task : τ)
  | respond (response : β)
  | closed

def ServerPc.current {α β τ : Type*} : ServerPc α β τ → List α
  | .begin request | .finish request _ => [request]
  | _ => []

def ServerPc.due {α β τ : Type*} : ServerPc α β τ → List (Option β)
  | .respond response => [some response]
  | _ => []

/-- A connection with its two ends. `toServer` and `toClient` are the bytes written and not read
yet. `sent`, `begun`, `handled` and `answers` are no part of the program: they record the requests
that were written and taken up, the results of handling them and the responses the client got. -/
structure Conn (α β τ : Type*) where
  toServer : Bytes := []
  toClient : Bytes := []
  intact : Bool := true
  /-- The client is in the middle of a call. -/
  waiting : Bool := false
  server : ServerPc α β τ := .reading
  sent : List α := []
  handled : List (α × Option β) := []
  answers : List β := []

variable {σ α β τ ι : Type*} (requests : Framing α) (responses : Framing β)
  (service : Service σ α β τ)

/-- A step of either end, or of the transport between them, with the first steps it takes in
handling a request. A call ends with an answer or an error, and a client that is dropped breaks its
connection. -/
inductive Conn.Step : σ × Conn α β τ → List (α × Option (β ⊕ τ)) → σ × Conn α β τ → Prop
  /-- A request that is refused leaves no bytes. -/
  | refused {s c} : c.waiting = false → Step (s, c) [] (s, c)
  | call {s c request bs} : c.waiting = false → c.intact = true →
      requests.emit request = some bs →
      Step (s, c) [] (s, { c with
        toServer := c.toServer ++ bs, waiting := true, sent := c.sent ++ [request] })
  /-- What is written to a broken connection is lost. -/
  | callLost {s c} : c.waiting = false → c.intact = false →
      Step (s, c) [] (s, { c with waiting := true })
  | read {s c r rest request} : c.server = .reading → c.toServer = bytes r ++ rest →
      (requests.read r).1 = .message request →
      Step (s, c) [] (s, { c with
        toServer := bytes (requests.read r).2 ++ rest, server := .begin request })
  | readEnd {s c r} : c.server = .reading → c.intact = false → c.toServer = bytes r →
      (requests.read r).1 = .starved →
      Step (s, c) [] (s, { c with toServer := bytes (requests.read r).2, server := .closed })
  | readMalformed {s c r rest} : c.server = .reading → c.toServer = bytes r ++ rest →
      (requests.read r).1 = .malformed →
      Step (s, c) [] (s, { c with
        toServer := bytes (requests.read r).2 ++ rest, server := .closed, intact := false })
  | beginFails {s s' c request} : c.server = .begin request →
      service.begins s request none s' →
      Step (s, c) [(request, none)] (s', { c with
        server := .closed, intact := false, handled := c.handled ++ [(request, none)] })
  | beginEnds {s s' c request response} : c.server = .begin request →
      service.begins s request (some (.inl response)) s' →
      Step (s, c) [(request, some (.inl response))] (s', { c with
        server := .respond response, handled := c.handled ++ [(request, some response)] })
  | beginLeaves {s s' c request task} : c.server = .begin request →
      service.begins s request (some (.inr task)) s' →
      Step (s, c) [(request, some (.inr task))] (s', { c with server := .finish request task })
  | finish {s s' c request task response} : c.server = .finish request task →
      service.finishes s task response s' →
      Step (s, c) [] (s', { c with
        server := .respond response, handled := c.handled ++ [(request, some response)] })
  | respond {s c response bs} : c.server = .respond response → c.intact = true →
      responses.emit response = some bs →
      Step (s, c) [] (s, { c with toClient := c.toClient ++ bs, server := .reading })
  /-- A response that is refused, or one that cannot be written, ends the connection. -/
  | respondFails {s c response} : c.server = .respond response →
      (c.intact = false ∨ responses.emit response = none) →
      Step (s, c) [] (s, { c with server := .closed, intact := false })
  /-- The server has not noticed yet that the connection is broken. -/
  | respondLost {s c response} : c.server = .respond response → c.intact = false →
      Step (s, c) [] (s, { c with server := .reading })
  | receive {s c r rest response} : c.waiting = true → c.toClient = bytes r ++ rest →
      (responses.read r).1 = .message response →
      Step (s, c) [] (s, { c with
        toClient := bytes (responses.read r).2 ++ rest, waiting := false
        answers := c.answers ++ [response] })
  | receiveEnd {s c r} : c.waiting = true → c.intact = false → c.toClient = bytes r →
      (responses.read r).1 = .starved →
      Step (s, c) [] (s, { c with toClient := bytes (responses.read r).2, waiting := false })
  | receiveMalformed {s c r rest} : c.waiting = true → c.toClient = bytes r ++ rest →
      (responses.read r).1 = .malformed →
      Step (s, c) []
        (s, { c with toClient := bytes (responses.read r).2 ++ rest, waiting := false })
  /-- The connection breaks. What has not left by then is lost. -/
  | breaks {s c} (m n : ℕ) : Step (s, c) [] (s, { c with
      toServer := c.toServer.take m, toClient := c.toClient.take n, intact := false })

/-- Requests are handled in the order they were sent, and answers are the results in this order. -/
structure Conn.Sound (c : Conn α β τ) : Prop where
  asked : ∃ left, c.sent = c.handled.map Prod.fst ++ c.server.current ++ left ∧
    requests.Carries c.intact left c.toServer
  answered : ∃ due lost, c.handled.map Prod.snd = c.answers.map some ++ due.map some ++ lost ∧
    responses.Carries c.intact due c.toClient ∧ (c.intact = true → lost = c.server.due)
  turn : c.sent.length ≤ c.answers.length + 1
  waits : c.intact = true → c.sent.length = c.answers.length + if c.waiting then 1 else 0
  serves : c.intact = true → c.server ≠ .closed

section Sound
variable {requests responses service} {s s' : σ} {c c' : Conn α β τ}

theorem Conn.Sound.new : Conn.Sound requests responses ({} : Conn α β τ) :=
  ⟨⟨[], rfl, .nil⟩, ⟨[], [], rfl, .nil, fun _ => rfl⟩, Nat.zero_le _, fun _ => rfl, nofun⟩

theorem Framing.Carries.cut {F : Framing α} {intact : Bool} {msgs : List α} {bs : Bytes}
    (h : F.Carries intact msgs bs) : F.Carries false msgs bs := ⟨h.emitted, h.part, nofun⟩

theorem Conn.Sound.cut (h : c.Sound requests responses) :
    Conn.Sound requests responses { c with intact := false } := by
  obtain ⟨left, hsent, hleft⟩ := h.asked
  obtain ⟨due, lost, hhandled, hdue, _⟩ := h.answered
  exact ⟨⟨left, hsent, hleft.cut⟩, ⟨due, lost, hhandled, hdue.cut, nofun⟩, h.turn, nofun, nofun⟩

/-- Neither end ever reads a malformed message. -/
theorem Conn.Sound.not_malformed (h : c.Sound requests responses) {r : Stream} {rest : Bytes} :
    (c.toServer = bytes r ++ rest → (requests.read r).1 ≠ .malformed) ∧
      (c.toClient = bytes r ++ rest → (responses.read r).1 ≠ .malformed) := by
  obtain ⟨left, _, hleft⟩ := h.asked
  obtain ⟨due, lost, _, hdue, _⟩ := h.answered
  constructor
  · intro hbytes he
    rw [hbytes] at hleft
    rcases hleft.read with ⟨_, _, _, hmsg, _⟩ | ⟨hstarved, _⟩ <;> simp_all
  · intro hbytes he
    rw [hbytes] at hdue
    rcases hdue.read with ⟨_, _, _, hmsg, _⟩ | ⟨hstarved, _⟩ <;> simp_all

theorem Conn.Sound.call (h : c.Sound requests responses) {request : α} {bs : Bytes}
    (hwaiting : c.waiting = false) (hintact : c.intact = true)
    (hbs : requests.emit request = some bs) : Conn.Sound requests responses
      { c with toServer := c.toServer ++ bs, waiting := true, sent := c.sent ++ [request] } := by
  obtain ⟨left, hsent, hleft⟩ := h.asked
  have hturn := h.waits hintact
  rw [hwaiting] at hturn
  rw [hintact] at hleft
  refine ⟨⟨left ++ [request], ?_, ?_⟩, h.answered, ?_, fun _ => ?_, h.serves⟩
  · change c.sent ++ [request] = _
    rw [hsent, List.append_assoc _ left]
  · change requests.Carries c.intact _ _
    rw [hintact]
    exact hleft.push hbs
  · simp only [List.length_append, List.length_singleton]
    exact Nat.succ_le_succ hturn.le
  · simp only [List.length_append, List.length_singleton, if_true]
    exact congrArg (· + 1) hturn

theorem Conn.Sound.read (h : c.Sound requests responses) {r : Stream} {rest : Bytes} {request : α}
    (hserver : c.server = .reading) (hbytes : c.toServer = bytes r ++ rest)
    (hread : (requests.read r).1 = .message request) : Conn.Sound requests responses
      ({ c with toServer := bytes (requests.read r).2 ++ rest, server := .begin request } :
        Conn α β τ) := by
  obtain ⟨left, hsent, hleft⟩ := h.asked
  obtain ⟨due, lost, hhandled, hdue, hlost⟩ := h.answered
  rw [hbytes] at hleft
  rcases hleft.read with ⟨msg, left', rfl, hmsg, hcarries⟩ | ⟨hstarved, _⟩
  · obtain rfl : msg = request := by
      rw [hread] at hmsg
      cases hmsg
      rfl
    refine ⟨⟨left', ?_, hcarries⟩, ⟨due, lost, hhandled, hdue, ?_⟩, h.turn, h.waits, nofun⟩
    · simpa [ServerPc.current, hserver] using hsent
    · simpa [ServerPc.due, hserver] using hlost
  · rw [hread] at hstarved
    cases hstarved

theorem Conn.Sound.handled (h : c.Sound requests responses) {request : α} {response : β}
    (hserver : c.server = .begin request ∨ ∃ task, c.server = .finish request task) :
    Conn.Sound requests responses ({ c with
      server := .respond response
      handled := c.handled ++ [(request, some response)] } : Conn α β τ) := by
  have hcurrent : c.server.current = [request] ∧ c.server.due = [] := by
    rcases hserver with hs | ⟨task, hs⟩ <;> rw [hs] <;> exact ⟨rfl, rfl⟩
  obtain ⟨left, hsent, hleft⟩ := h.asked
  obtain ⟨due, lost, hhandled, hdue, hlost⟩ := h.answered
  rw [hcurrent.1] at hsent
  rw [hcurrent.2] at hlost
  refine ⟨⟨left, ?_, hleft⟩, ⟨due, lost ++ [some response], ?_, hdue, ?_⟩, h.turn, h.waits, nofun⟩
  · simpa [ServerPc.current] using hsent
  · simp [hhandled]
  · intro hi
    rw [hlost hi]
    rfl

theorem Conn.Sound.respond (h : c.Sound requests responses) {response : β} {bs : Bytes}
    (hserver : c.server = .respond response) (hintact : c.intact = true)
    (hbs : responses.emit response = some bs) : Conn.Sound requests responses
      ({ c with toClient := c.toClient ++ bs, server := .reading } : Conn α β τ) := by
  obtain ⟨left, hsent, hleft⟩ := h.asked
  obtain ⟨due, lost, hhandled, hdue, hlost⟩ := h.answered
  rw [hserver] at hsent hlost
  rw [hlost hintact] at hhandled
  rw [hintact] at hdue
  refine ⟨⟨left, hsent, hleft⟩, ⟨due ++ [response], [], ?_, ?_, fun _ => rfl⟩, h.turn, h.waits,
    nofun⟩
  · simpa [ServerPc.due] using hhandled
  · change responses.Carries c.intact _ _
    rw [hintact]
    exact hdue.push hbs

theorem Conn.Sound.receive (h : c.Sound requests responses) {r : Stream} {rest : Bytes}
    {response : β} (hwaiting : c.waiting = true) (hbytes : c.toClient = bytes r ++ rest)
    (hread : (responses.read r).1 = .message response) : Conn.Sound requests responses
      { c with toClient := bytes (responses.read r).2 ++ rest, waiting := false
               answers := c.answers ++ [response] } := by
  obtain ⟨due, lost, hhandled, hdue, hlost⟩ := h.answered
  rw [hbytes] at hdue
  rcases hdue.read with ⟨msg, due', rfl, hmsg, hcarries⟩ | ⟨hstarved, _⟩
  · obtain rfl : msg = response := by
      rw [hread] at hmsg
      cases hmsg
      rfl
    refine ⟨h.asked, ⟨due', lost, ?_, hcarries, hlost⟩, ?_, fun hi => ?_, h.serves⟩
    · simpa using hhandled
    · simpa using h.turn.trans (Nat.le_succ _)
    · simpa [hwaiting] using h.waits hi
  · rw [hread] at hstarved
    cases hstarved

theorem Conn.Sound.step (h : c.Sound requests responses)
    {begun : List (α × Option (β ⊕ τ))}
    (hstep : Conn.Step requests responses service (s, c) begun (s', c')) :
    c'.Sound requests responses := by
  obtain ⟨left, hsent, hleft⟩ := h.asked
  obtain ⟨due, lost, hhandled, hdue, hlost⟩ := h.answered
  cases hstep with
  | refused _ => exact h
  | call hwaiting hintact hbs => exact h.call hwaiting hintact hbs
  | callLost _ hbroken => exact ⟨h.asked, h.answered, h.turn, fun hi => by simp_all, h.serves⟩
  | read hserver hbytes hread => exact h.read hserver hbytes hread
  | @readEnd _ _ r hserver hbroken hbytes hstarved =>
      rw [hbytes, ← List.append_nil (bytes r)] at hleft
      rw [hserver] at hsent
      rcases hleft.read with ⟨_, _, _, hmsg, _⟩ | ⟨_, hempty⟩
      · rw [hstarved] at hmsg
        cases hmsg
      · refine ⟨⟨left, hsent, ?_⟩, ⟨due, lost, hhandled, hdue, ?_⟩, h.turn, h.waits, ?_⟩
        · rw [hempty rfl]
          exact ⟨hleft.emitted, List.nil_prefix, fun hi => by simp_all⟩
        all_goals exact fun hi => by simp_all
  | readMalformed _ hbytes hread => exact absurd hread (h.not_malformed.1 hbytes)
  | @beginFails _ _ _ request hserver _ =>
      rw [hserver] at hsent
      refine ⟨⟨left, ?_, hleft.cut⟩, ⟨due, lost ++ [none], ?_, hdue.cut, nofun⟩, h.turn, nofun,
        nofun⟩
      · simpa [ServerPc.current] using hsent
      · simp [hhandled]
  | beginEnds hserver _ => exact h.handled (.inl hserver)
  | beginLeaves hserver _ =>
      rw [hserver] at hsent hlost
      exact ⟨⟨left, hsent, hleft⟩, ⟨due, lost, hhandled, hdue, hlost⟩, h.turn, h.waits, nofun⟩
  | finish hserver _ => exact h.handled (.inr ⟨_, hserver⟩)
  | respond hserver hintact hbs => exact h.respond hserver hintact hbs
  | respondFails hserver _ =>
      rw [hserver] at hsent
      exact ⟨⟨left, hsent, hleft.cut⟩, ⟨due, lost, hhandled, hdue.cut, nofun⟩, h.turn, nofun, nofun⟩
  | respondLost hserver hbroken =>
      rw [hserver] at hsent
      exact ⟨⟨left, hsent, hleft⟩, ⟨due, lost, hhandled, hdue, fun hi => by simp_all⟩, h.turn,
        h.waits, nofun⟩
  | receive hwaiting hbytes hread => exact h.receive hwaiting hbytes hread
  | @receiveEnd _ _ r _ hbroken hbytes hstarved =>
      rw [hbytes, ← List.append_nil (bytes r)] at hdue
      rcases hdue.read with ⟨_, _, _, hmsg, _⟩ | ⟨_, hempty⟩
      · rw [hstarved] at hmsg
        cases hmsg
      · refine ⟨h.asked, ⟨due, lost, hhandled, ?_, hlost⟩, h.turn, fun hi => by simp_all, h.serves⟩
        rw [hempty rfl]
        exact ⟨hdue.emitted, List.nil_prefix, fun hi => by simp_all⟩
  | receiveMalformed _ hbytes hread => exact absurd hread (h.not_malformed.2 hbytes)
  | breaks m n =>
      exact ⟨⟨left, hsent, hleft.broken m⟩, ⟨due, lost, hhandled, hdue.broken n, nofun⟩, h.turn,
        nofun, nofun⟩

theorem Conn.Sound.in_order (h : c.Sound requests responses) :
    c.handled.map Prod.fst ++ c.server.current <+: c.sent ∧
      c.answers.map some <+: c.handled.map Prod.snd ∧
      c.sent.length ≤ c.answers.length + 1 := by
  obtain ⟨left, hsent, _⟩ := h.asked
  obtain ⟨due, lost, hhandled, _, _⟩ := h.answered
  refine ⟨⟨left, hsent.symm⟩, ⟨due.map some ++ lost, ?_⟩, h.turn⟩
  rw [hhandled, List.append_assoc]

theorem getElem?_of_prefix {γ : Type*} {xs ys : List γ} (h : xs <+: ys) {k : ℕ} {x : γ}
    (hx : xs[k]? = some x) : ys[k]? = some x := by
  obtain ⟨hk, rfl⟩ := List.getElem?_eq_some_iff.1 hx
  exact List.prefix_iff_getElem?.1 h k hk

/-- The `k`-th answer on a connection is what handling the `k`-th request on it gave. -/
theorem Conn.Sound.mem_handled (h : c.Sound requests responses) {k : ℕ} {request : α}
    {response : β} (hrequest : c.sent[k]? = some request)
    (hresponse : c.answers[k]? = some response) : (request, some response) ∈ c.handled := by
  obtain ⟨hsent, hanswers, _⟩ := h.in_order
  have hsnd : (c.handled.map Prod.snd)[k]? = some (some response) :=
    getElem?_of_prefix hanswers (by rw [List.getElem?_map, hresponse, Option.map_some])
  rw [List.getElem?_map] at hsnd
  obtain ⟨⟨a, b⟩, hk, rfl⟩ := Option.map_eq_some_iff.1 hsnd
  have hfst : c.sent[k]? = some a := by
    refine getElem?_of_prefix ((List.prefix_append _ _).trans hsent) ?_
    rw [List.getElem?_map, hk, Option.map_some]
  obtain rfl : a = request := Option.some.inj (hfst.symm.trans hrequest)
  exact List.mem_of_getElem? hk

theorem Conn.Sound.idle (h : c.Sound requests responses) (hintact : c.intact = true)
    (hwaiting : c.waiting = false) : c.server = .reading ∧ c.toServer = [] ∧ c.toClient = [] := by
  obtain ⟨left, hsent, hleft⟩ := h.asked
  obtain ⟨due, lost, hhandled, hdue, hlost⟩ := h.answered
  have hturn := h.waits hintact
  have hlen := congrArg List.length hsent
  have hlen' := congrArg List.length hhandled
  rw [hlost hintact] at hlen'
  simp only [hwaiting, List.length_append, List.length_map] at hturn hlen hlen'
  obtain rfl : left = [] := List.length_eq_zero_iff.1 (by simp at hturn; omega)
  obtain rfl : due = [] := List.length_eq_zero_iff.1 (by simp at hturn; omega)
  refine ⟨?_, hleft.whole hintact, hdue.whole hintact⟩
  cases hserver : c.server with
  | reading => rfl
  | closed => exact absurd hserver (h.serves hintact)
  | begin | finish =>
      simp only [hserver, ServerPc.current, List.length_singleton] at hlen
      simp at hturn
      omega
  | respond =>
      simp only [hserver, ServerPc.due, List.length_singleton] at hlen'
      simp at hturn
      omega

end Sound

/-! ## A service and its clients -/

/-- `begun` is no part of the program: it records the first steps, in the order they were taken. -/
structure Network (σ ι α β τ : Type*) where
  service : σ
  conns : ι → Conn α β τ := fun _ => {}
  begun : List (ι × α × Option (β ⊕ τ)) := []

variable [DecidableEq ι]

/-- A step on a connection, labelled with it, or one of the service itself. -/
inductive Network.Step : Network σ ι α β τ → Option ι → Network σ ι α β τ → Prop
  | conn {net : Network σ ι α β τ} {i : ι} {begun : List (α × Option (β ⊕ τ))} {s' : σ}
      {c' : Conn α β τ} :
      Conn.Step requests responses service (net.service, net.conns i) begun (s', c') →
      Step net (some i) { service := s', conns := Function.update net.conns i c'
                          begun := net.begun ++ begun.map (i, ·) }
  | others {net : Network σ ι α β τ} {s' : σ} : service.others net.service s' →
      Step net none { net with service := s' }

def network (s : σ) : System (Network σ ι α β τ) (Option ι) where
  start net := net = { service := s }
  step := Network.Step requests responses service

section Runs
variable {requests responses service} {s : σ} {net : Network σ ι α β τ}

theorem Network.sound (h : (network requests responses service s).Reachable net) (i : ι) :
    (net.conns i).Sound requests responses := by
  refine h.invariant (fun net => ∀ i, (net.conns i).Sound requests responses) ?_ ?_ i
  · rintro _ rfl i
    exact .new
  · intro net _ _ hnet _ hstep i
    cases hstep with
    | @conn j _ _ _ hstep =>
        by_cases hij : i = j
        · subst hij
          simpa using (hnet i).step hstep
        · simpa [Function.update_of_ne hij] using hnet i
    | others _ => exact hnet i

/-! ## An undisturbed call -/

def Conn.Steps (requests : Framing α) (responses : Framing β) (service : Service σ α β τ) :
    σ × Conn α β τ → σ × Conn α β τ → Prop :=
  Relation.ReflTransGen fun x y => ∃ begun, Conn.Step requests responses service x begun y

theorem Network.exists_of_steps (h : (network requests responses service s).Reachable net) {i : ι}
    {x : σ × Conn α β τ}
    (hsteps : Conn.Steps requests responses service (net.service, net.conns i) x) :
    ∃ net', (network requests responses service s).Reachable net' ∧ net'.service = x.1 ∧
      net'.conns = Function.update net.conns i x.2 := by
  induction hsteps with
  | refl => exact ⟨net, h, rfl, (Function.update_eq_self i net.conns).symm⟩
  | tail _ hstep ih =>
      obtain ⟨begun, hstep⟩ := hstep
      obtain ⟨net', hnet', hservice, hconns⟩ := ih
      have hi : net'.conns i = _ := (congrFun hconns i).trans (Function.update_self ..)
      refine ⟨_, hnet'.next (.conn (i := i) (by rw [hservice, hi]; exact hstep)), rfl, ?_⟩
      rw [hconns, Function.update_idem]

/-- A call on an intact connection goes through if nothing interferes. -/
theorem Conn.Sound.call_steps {s₁ s₂ s₃ : σ} {c : Conn α β τ} (h : c.Sound requests responses)
    (hintact : c.intact = true) (hwaiting : c.waiting = false) {request : α} {task : τ}
    {response : β} {bs bs' : Bytes} (hbs : requests.emit request = some bs)
    (hbegins : service.begins s₁ request (some (.inr task)) s₂)
    (hfinishes : service.finishes s₂ task response s₃)
    (hbs' : responses.emit response = some bs') :
    ∃ c', Conn.Steps requests responses service (s₁, c) (s₃, c') ∧ c'.intact = true ∧
      c'.waiting = false ∧ c'.sent = c.sent ++ [request] ∧
        c'.answers = c.answers ++ [response] := by
  obtain ⟨hserver, hin, hout⟩ := h.idle hintact hwaiting
  obtain ⟨r, hr, hread⟩ := requests.exists_chunks hbs
  obtain ⟨r', hr', hread'⟩ := responses.exists_chunks hbs'
  obtain ⟨toServer, toClient, intact, waiting, server, sent, handled, answers⟩ := c
  obtain rfl : intact = true := hintact
  obtain rfl : waiting = false := hwaiting
  obtain rfl : server = .reading := hserver
  obtain rfl : toServer = [] := hin
  obtain rfl : toClient = [] := hout
  let asked : Conn α β τ := ⟨bs, [], true, true, .reading, sent ++ [request], handled, answers⟩
  let begun : Conn α β τ := { asked with
    toServer := bytes (requests.read r).2 ++ [], server := .begin request }
  let done : Conn α β τ := { begun with
    server := .respond response, handled := handled ++ [(request, some response)] }
  let replied : Conn α β τ := { done with toClient := bs', server := .reading }
  have hcall : Conn.Step requests responses service (s₁, ⟨[], [], true, false, .reading, sent,
      handled, answers⟩) [] (s₁, asked) := .call rfl rfl hbs
  have htake : Conn.Step requests responses service (s₁, asked) [] (s₁, begun) :=
    .read rfl (by simp [asked, hr]) hread
  have hbegin : Conn.Step requests responses service (s₁, begun) [(request, some (.inr task))]
      (s₂, { begun with server := .finish request task }) := .beginLeaves rfl hbegins
  have hfinish : Conn.Step requests responses service
      (s₂, { begun with server := .finish request task }) [] (s₃, done) := .finish rfl hfinishes
  have hrespond : Conn.Step requests responses service (s₃, done) [] (s₃, replied) :=
    .respond rfl rfl hbs'
  have hreceive : Conn.Step requests responses service (s₃, replied) [] (s₃, { replied with
      toClient := bytes (responses.read r').2 ++ [], waiting := false
      answers := answers ++ [response] }) := .receive rfl (by simp [replied, hr']) hread'
  exact ⟨_, ((((((.refl : Conn.Steps requests responses service _ _).tail ⟨_, hcall⟩).tail
    ⟨_, htake⟩).tail ⟨_, hbegin⟩).tail ⟨_, hfinish⟩).tail ⟨_, hrespond⟩).tail ⟨_, hreceive⟩,
    rfl, rfl, rfl, rfl⟩

/-! ## What holds of the service -/

/-- A condition on the service and the first steps taken so far that all its steps keep. -/
structure Service.Keeps (service : Service σ α β τ)
    (Inv : σ → List (α × Option (β ⊕ τ)) → Prop) : Prop where
  begins : ∀ {s begun request result s'}, Inv s begun → service.begins s request result s' →
    Inv s' (begun ++ [(request, result)])
  finishes : ∀ {s begun task response s'}, Inv s begun → service.finishes s task response s' →
    Inv s' begun
  others : ∀ {s begun s'}, Inv s begun → service.others s s' → Inv s' begun

theorem Service.Keeps.step {Inv : σ → List (α × Option (β ⊕ τ)) → Prop} (hinv : service.Keeps Inv)
    {s s' : σ} {c c' : Conn α β τ} {begun : List (α × Option (β ⊕ τ))}
    (hstep : Conn.Step requests responses service (s, c) begun (s', c'))
    {before : List (α × Option (β ⊕ τ))} (h : Inv s before) : Inv s' (before ++ begun) := by
  cases hstep with
  | beginFails _ hbegins => exact hinv.begins h hbegins
  | beginEnds _ hbegins => exact hinv.begins h hbegins
  | beginLeaves _ hbegins => exact hinv.begins h hbegins
  | finish _ hfinishes => simpa using hinv.finishes h hfinishes
  | _ => simpa using h

theorem Network.keeps {Inv : σ → List (α × Option (β ⊕ τ)) → Prop} (hinv : service.Keeps Inv)
    (hstart : Inv s []) (h : (network requests responses service s).Reachable net) :
    Inv net.service (net.begun.map Prod.snd) := by
  refine h.invariant (fun net => Inv net.service (net.begun.map Prod.snd)) ?_ ?_
  · rintro _ rfl
    exact hstart
  · intro net _ _ hnet _ hstep
    cases hstep with
    | conn hstep => simpa [Function.comp_def] using hinv.step hstep hnet
    | others hothers => exact hinv.others hnet hothers

def Conn.taken (c : Conn α β τ) : List α := c.handled.map Prod.fst ++
  match c.server with
  | .finish request _ => [request]
  | _ => []

theorem Conn.taken_step {s s' : σ} {c c' : Conn α β τ} {begun : List (α × Option (β ⊕ τ))}
    (hstep : Conn.Step requests responses service (s, c) begun (s', c')) :
    c'.taken = c.taken ++ begun.map Prod.fst := by
  cases hstep <;> simp_all [Conn.taken]

theorem Conn.Sound.taken_of_sent {c : Conn α β τ} (h : c.Sound requests responses) :
    c.taken <+: c.sent := by
  refine List.IsPrefix.trans ?_ h.in_order.1
  unfold Conn.taken
  cases c.server with
  | finish request task => exact List.prefix_rfl
  | begin request => simp [ServerPc.current]
  | _ => simp [ServerPc.current]

/-- Of all first steps those on one connection are the requests taken up there, once each. -/
theorem Network.begun_filter (h : (network requests responses service s).Reachable net) (i : ι) :
    (net.begun.filter (·.1 = i)).map (·.2.1) = (net.conns i).taken := by
  refine h.invariant
    (fun net => ∀ i, (net.begun.filter (·.1 = i)).map (·.2.1) = (net.conns i).taken) ?_ ?_ i
  · rintro _ rfl i
    rfl
  · intro net _ _ hnet _ hstep i
    cases hstep with
    | @conn j begun _ _ hstep =>
        rw [List.filter_append, List.map_append, hnet i]
        by_cases hij : j = i
        · subst hij
          simp [Conn.taken_step hstep, List.filter_map, Function.comp_def]
        · simp [Function.update_of_ne (Ne.symm hij), List.filter_map, Function.comp_def, hij]
    | others _ => exact hnet i

/-! ## What an answer promises -/

/-- What holds of the service and a request once it has been handled, and before that of its task,
established by the steps that handle it and kept by all. -/
structure Service.Promises (service : Service σ α β τ) (Inv : σ → Prop) (Started : σ → α → τ → Prop)
    (Kept : σ → α → β → Prop) : Prop where
  ends : ∀ {s request response s'}, Inv s →
    service.begins s request (some (.inl response)) s' → Kept s' request response
  leaves : ∀ {s request task s'}, Inv s →
    service.begins s request (some (.inr task)) s' → Started s' request task
  finishes : ∀ {s request task response s'}, Started s request task →
    service.finishes s task response s' → Kept s' request response
  keeps : ∀ {s s'}, Inv s → ((∃ request result, service.begins s request result s') ∨
      (∃ task response, service.finishes s task response s') ∨ service.others s s') →
    Inv s' ∧ (∀ request task, Started s request task → Started s' request task) ∧
      ∀ request response, Kept s request response → Kept s' request response

structure Conn.Honoured (Started : σ → α → τ → Prop) (Kept : σ → α → β → Prop) (s : σ)
    (c : Conn α β τ) : Prop where
  handled : ∀ request response, (request, some response) ∈ c.handled → Kept s request response
  started : ∀ request task, c.server = .finish request task → Started s request task

section Promises
variable {Inv : σ → Prop} {Started : σ → α → τ → Prop} {Kept : σ → α → β → Prop}
  (hpromises : service.Promises Inv Started Kept)
include hpromises

theorem Conn.Step.moves {s s' : σ} {c c' : Conn α β τ} {begun : List (α × Option (β ⊕ τ))}
    (hs : Inv s) (hstep : Conn.Step requests responses service (s, c) begun (s', c')) :
    Inv s' ∧ (∀ request task, Started s request task → Started s' request task) ∧
      ∀ request response, Kept s request response → Kept s' request response := by
  cases hstep with
  | beginFails _ h => exact hpromises.keeps hs (.inl ⟨_, _, h⟩)
  | beginEnds _ h => exact hpromises.keeps hs (.inl ⟨_, _, h⟩)
  | beginLeaves _ h => exact hpromises.keeps hs (.inl ⟨_, _, h⟩)
  | finish _ h => exact hpromises.keeps hs (.inr (.inl ⟨_, _, h⟩))
  | _ => exact ⟨hs, fun _ _ h => h, fun _ _ h => h⟩

theorem Conn.Honoured.step {s s' : σ} {c c' : Conn α β τ} {begun : List (α × Option (β ⊕ τ))}
    (hs : Inv s) (h : c.Honoured Started Kept s)
    (hstep : Conn.Step requests responses service (s, c) begun (s', c')) :
    c'.Honoured Started Kept s' := by
  obtain ⟨_, hstarted, hkept⟩ := hstep.moves hpromises hs
  have hold : ∀ request response, (request, some response) ∈ c.handled → Kept s' request response :=
    fun request response hmem => hkept _ _ (h.handled _ _ hmem)
  have hlast : ∀ {request : α} {result : Option β},
      (∀ response, result = some response → Kept s' request response) →
      ∀ request' response, (request', some response) ∈ c.handled ++ [(request, result)] →
        Kept s' request' response := by
    intro request result hresult request' response hmem
    rcases List.mem_append.1 hmem with hmem | hmem
    · exact hold _ _ hmem
    · obtain ⟨rfl, rfl⟩ := Prod.mk.inj (List.mem_singleton.1 hmem)
      exact hresult _ rfl
  cases hstep with
  | beginFails _ _ => exact ⟨hlast nofun, nofun⟩
  | beginEnds _ hbegins =>
      refine ⟨hlast fun _ he => ?_, nofun⟩
      obtain rfl := Option.some.inj he
      exact hpromises.ends hs hbegins
  | beginLeaves _ hbegins =>
      refine ⟨hold, fun _ _ he => ?_⟩
      cases he
      exact hpromises.leaves hs hbegins
  | finish hserver hfinishes =>
      refine ⟨hlast fun _ he => ?_, nofun⟩
      obtain rfl := Option.some.inj he
      exact hpromises.finishes (h.started _ _ hserver) hfinishes
  | read | readEnd | readMalformed | respond | respondFails | respondLost => exact ⟨hold, nofun⟩
  | _ => exact ⟨hold, fun _ _ he => hstarted _ _ (h.started _ _ he)⟩

/-- Whatever was answered on any connection, its promise holds from then on. -/
theorem Network.answered (hs : Inv s) (h : (network requests responses service s).Reachable net)
    {i : ι} {k : ℕ} {request : α} {response : β}
    (hrequest : (net.conns i).sent[k]? = some request)
    (hresponse : (net.conns i).answers[k]? = some response) :
    Kept net.service request response := by
  have hhonoured := h.invariant
    (fun net => Inv net.service ∧ ∀ i, (net.conns i).Honoured Started Kept net.service) ?_ ?_
  · exact (hhonoured.2 i).handled _ _ ((Network.sound h i).mem_handled hrequest hresponse)
  · rintro _ rfl
    exact ⟨hs, fun i => ⟨nofun, nofun⟩⟩
  · rintro net _ _ ⟨hs, hnet⟩ _ hstep
    have hmono : ∀ {s' : σ} {i : ι}, (Inv s' ∧
        (∀ request task, Started net.service request task → Started s' request task) ∧
        ∀ request response, Kept net.service request response → Kept s' request response) →
        (net.conns i).Honoured Started Kept s' :=
      fun hmoves => ⟨fun _ _ hmem => hmoves.2.2 _ _ ((hnet _).handled _ _ hmem),
        fun _ _ he => hmoves.2.1 _ _ ((hnet _).started _ _ he)⟩
    cases hstep with
    | @conn j begun s' c' hstep =>
        have hmoves := hstep.moves hpromises hs
        refine ⟨hmoves.1, fun i => ?_⟩
        by_cases hij : i = j
        · subst hij
          simpa using (hnet i).step hpromises hs hstep
        · simpa [Function.update_of_ne hij] using hmono hmoves
    | others hothers =>
        have hmoves := hpromises.keeps hs (.inr (.inr hothers))
        exact ⟨hmoves.1, fun i => hmono hmoves⟩

end Promises
end Runs

end Session
