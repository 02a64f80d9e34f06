import NomadRs.Jobspec
import NomadRs.Rumors

/-!
# Cluster membership

A member keeps a roster of what it knows about the members, and sends it around. Records about one
member are ordered by an incarnation number that only the member itself raises; a claim about the
receiver itself is ignored. So a roster is a view in the sense of `Rumors`, and merging is learning
(`merge_eq_learnAll`). It does not matter in which order records arrive, in which batches, and how
often (`merge_insensitive`).

A member that is started anew begins at incarnation 0 again. A peer that remembers an earlier life
of it does not take the new record (`joiner_visible_iff`).
-/

open Rumors

namespace NomadRs

inductive MemberStatus
  | alive | leaving | left | failed
  deriving DecidableEq

structure Member where
  name : String
  addr : String
  status : MemberStatus
  deriving DecidableEq

/-- A roster entry: the member plus the incarnation that orders updates. -/
structure Entry where
  member : Member
  incarnation : UInt64
  deriving DecidableEq

structure Wire where
  name : String
  addr : String
  status : MemberStatus
  incarnation : UInt64
  deriving DecidableEq

inductive Msg
  | pushPull (peers : List Wire) (reply : Bool)
  | gossip (peers : List Wire)

def Msg.peers : Msg → List Wire
  | .pushPull peers _ => peers
  | .gossip peers => peers

def Msg.reply : Msg → Bool
  | .pushPull _ reply => reply
  | .gossip _ => false

abbrev Roster := HashMap String Entry

def mergeOne (selfName : String) (roster : Roster) (w : Wire) : Roster :=
  if w.name == selfName then roster
  else
    let supersedes := (roster.lookup w.name).all fun e => w.incarnation > e.incarnation
    if supersedes then
      roster.insert w.name
        { member := { name := w.name, addr := w.addr, status := w.status }
          incarnation := w.incarnation }
    else roster

def merge (roster : Roster) (selfName : String) (peers : List Wire) : Roster :=
  peers.foldl (mergeOne selfName) roster

def snapshot (roster : Roster) : List Wire :=
  roster.values.map fun e =>
    { name := e.member.name, addr := e.member.addr, status := e.member.status
      incarnation := e.incarnation }

/-- A member; `addr` is the address its socket is bound to. -/
structure GossipMembership where
  name : String
  addr : String
  state : Roster
  incarnation : UInt64

namespace GossipMembership

def start (name addr : String) : GossipMembership where
  name := name
  addr := addr
  state := AList.insert name ⟨⟨name, addr, .alive⟩, 0⟩ ∅
  incarnation := 0

/-- `sent` says which of the sends succeed. What is sent comes with its destination. -/
def join (self : GossipMembership) (sent : String → Bool) (addrs : List String) :
    Result Nat × List (String × Msg) :=
  let payload := Msg.pushPull (snapshot self.state) true
  let reached := addrs.filter sent
  if reached.length == 0 && !addrs.isEmpty then
    (.error (.runtime "membership join: no peers reachable"), [])
  else (.ok reached.length, reached.map fun addr => (addr, payload))

def leave (self : GossipMembership) : GossipMembership × List (String × Msg) :=
  let inc := self.incarnation + 1
  let roster := match self.state.lookup self.name with
    | some e => self.state.insert self.name ⟨{ e.member with status := .left }, inc⟩
    | none => self.state
  let targets := (roster.values.filter fun e => e.member.name != self.name).map
    fun e => e.member.addr
  let payload := Msg.gossip (snapshot roster)
  ({ self with state := roster, incarnation := inc }, targets.map fun addr => (addr, payload))

/-- What the receive loop does with a message, up to the answer. -/
def receive (self : GossipMembership) (msg : Msg) : GossipMembership :=
  { self with state := merge self.state self.name msg.peers }

def answer (self : GossipMembership) : Msg := .pushPull (snapshot self.state) false

end GossipMembership

/-! ## Merging is learning -/

def Entry.version (e : Entry) : ℕ := e.incarnation.toNat

def Wire.rumor (w : Wire) : String × Entry :=
  (w.name, ⟨⟨w.name, w.addr, w.status⟩, w.incarnation⟩)

theorem merge_eq_learnAll (roster : Roster) (selfName : String) (peers : List Wire) :
    merge roster selfName peers =
      learnAll Entry.version selfName roster (peers.map Wire.rumor) := by
  rw [learnAll, List.foldl_map]
  refine congrArg (fun f => peers.foldl f roster) ?_
  funext roster w
  simp only [mergeOne, learn, Wire.rumor, Entry.version, beq_iff_eq, gt_iff_lt,
    UInt64.lt_iff_toNat_lt]
  rfl

theorem merge_self {roster : Roster} {selfName : String} {peers : List Wire} :
    (merge roster selfName peers).lookup selfName = roster.lookup selfName := by
  rw [merge_eq_learnAll, learnAll_self]

/-- Entries are filed under the names of their members. -/
def Roster.Keyed (roster : Roster) : Prop :=
  ∀ k e, roster.lookup k = some e → e.member.name = k

variable {roster : Roster} {selfName : String} {peers : List Wire}

theorem Roster.Keyed.merge (h : roster.Keyed) : Roster.Keyed (merge roster selfName peers) := by
  intro k e he
  rw [merge_eq_learnAll] at he
  rcases eq_or_mem_of_learnAll he with he | hmem
  · exact h k e he
  · obtain ⟨w, _, hw⟩ := List.mem_map.1 hmem
    cases hw
    rfl

theorem snapshot_rumors (h : roster.Keyed) :
    (snapshot roster).map Wire.rumor = roster.entries.map fun e => (e.1, e.2) := by
  rw [snapshot, List.map_map, HashMap.values, List.map_map]
  apply List.map_congr_left
  rintro ⟨k, e⟩ hmem
  have hname := h k e (AList.mem_lookup_iff.2 hmem)
  subst hname
  rfl

theorem mem_snapshot_rumors (h : roster.Keyed) {k : String} {e : Entry} :
    (k, e) ∈ (snapshot roster).map Wire.rumor ↔ roster.lookup k = some e := by
  rw [snapshot_rumors h, List.mem_map]
  constructor
  · rintro ⟨⟨k, e⟩, hmem, ⟨⟩⟩
    exact AList.mem_lookup_iff.2 hmem
  · exact fun he => ⟨⟨k, e⟩, AList.mem_lookup_iff.1 he, rfl⟩

theorem nodup_snapshot_rumors (h : roster.Keyed) :
    (((snapshot roster).map Wire.rumor).map Prod.fst).Nodup := by
  rw [snapshot_rumors h, List.map_map]
  exact roster.keys_nodup

/-! ## Batches in any order -/

def mergeAll (roster : Roster) (selfName : String) (batches : List (List Wire)) : Roster :=
  batches.foldl (fun roster peers => merge roster selfName peers) roster

theorem mergeAll_eq_merge (batches : List (List Wire)) :
    mergeAll roster selfName batches = merge roster selfName batches.flatten := by
  rw [mergeAll, merge, List.foldl_flatten]
  rfl

def Recorded (roster : Roster) (batches : List (List Wire)) (name : String) (e : Entry) : Prop :=
  roster.lookup name = some e ∨ ∃ w ∈ batches.flatten, w.rumor = (name, e)

/-- Records with the same name and incarnation are equal. -/
def OnePerIncarnation (roster : Roster) (batches : List (List Wire)) : Prop :=
  ∀ name e e', Recorded roster batches name e → Recorded roster batches name e' →
    e.incarnation = e'.incarnation → e = e'

theorem recorded_iff_heard {batches : List (List Wire)} {name : String} {e : Entry} :
    Recorded roster batches name e ↔
      Heard roster (batches.flatten.map Wire.rumor) name e := by
  rw [Recorded, Heard, List.mem_map]

theorem OnePerIncarnation.unambiguous {batches : List (List Wire)}
    (h : OnePerIncarnation roster batches) :
    Unambiguous Entry.version roster (batches.flatten.map Wire.rumor) :=
  fun name e e' he he' hversion => h name e e' (recorded_iff_heard.2 he)
    (recorded_iff_heard.2 he') (UInt64.toNat_inj.1 hversion)

/-- Merging the same records in other batches, in another order or repeatedly makes no difference.
The entry of the member itself stays, and of every other the record of the highest incarnation. -/
theorem merge_insensitive {batches : List (List Wire)} (h : OnePerIncarnation roster batches) :
    (∀ batches' : List (List Wire), (∀ w, w ∈ batches'.flatten ↔ w ∈ batches.flatten) →
      (mergeAll roster selfName batches).Relayout (mergeAll roster selfName batches')) ∧
    (mergeAll roster selfName batches).lookup selfName = roster.lookup selfName ∧
    ∀ name, name ≠ selfName → ∀ e, (mergeAll roster selfName batches).lookup name = some e ↔
      Recorded roster batches name e ∧
        ∀ e', Recorded roster batches name e' → e'.incarnation ≤ e.incarnation := by
  simp only [mergeAll_eq_merge, merge_eq_learnAll]
  refine ⟨fun batches' hsame => ?_, learnAll_self, fun name hname e => ?_⟩
  · refine learnAll_relayout h.unambiguous fun r => ?_
    simp only [List.mem_map, hsame]
  · rw [lookup_eq_some_iff h.unambiguous hname, Newest]
    simp only [recorded_iff_heard, Entry.version, UInt64.le_iff_toNat_le]

/-- A record that is met twice, after and before one of the same member that has left. -/
theorem merge_insensitive_twoBatches :
    let record : Wire := ⟨"s2", "127.0.0.1:7002", .alive, 0⟩
    let left : Wire := ⟨"s2", "127.0.0.1:7002", .left, 1⟩
    (mergeAll ∅ "s1" [[record, left]]).Relayout
      (mergeAll ∅ "s1" [[left], [record, record]]) := by
  intro record left
  have hone : OnePerIncarnation ∅ [[record, left]] := by
    rintro name e e' (he | ⟨w, hw, he⟩) (he' | ⟨w', hw', he'⟩) hinc
    · simp at he
    · simp at he
    · simp at he'
    · have hpair : w = record ∨ w = left := by simpa using hw
      have hpair' : w' = record ∨ w' = left := by simpa using hw'
      rcases hpair with rfl | rfl <;> rcases hpair' with rfl | rfl <;> cases he <;> cases he'
      · rfl
      · cases hinc
      · cases hinc
      · rfl
  refine (merge_insensitive hone).1 _ fun w => ?_
  simp [or_comm]

/-! ## A new member and its peer -/

namespace GossipMembership

/-- Started, and not left since; what it received may be in its roster. -/
inductive Fresh : GossipMembership → Prop
  | start (name addr : String) : Fresh (start name addr)
  | receive {self : GossipMembership} (msg : Msg) : Fresh self → Fresh (self.receive msg)
  | relayout {self : GossipMembership} {state : Roster} :
      Fresh self → self.state.Relayout state → Fresh { self with state }

theorem Fresh.keyed {self : GossipMembership} (h : Fresh self) : self.state.Keyed := by
  induction h with
  | start name addr =>
      intro k e he
      rcases HashMap.lookup_insert_eq_some.1 he with ⟨rfl, rfl⟩ | ⟨_, he⟩
      · rfl
      · simp at he
  | receive msg _ ih => exact ih.merge
  | relayout _ hr ih => exact fun k e he => ih k e ((hr.lookup_eq k).trans he)

theorem Fresh.own {self : GossipMembership} (h : Fresh self) :
    self.state.lookup self.name = some ⟨⟨self.name, self.addr, .alive⟩, 0⟩ := by
  induction h with
  | start name addr => exact AList.lookup_insert _
  | receive msg _ ih => exact merge_self.trans ih
  | relayout _ hr ih => exact (hr.lookup_eq _).symm.trans ih

theorem join_payload {self : GossipMembership} {sent : String → Bool} {addrs : List String}
    {d : String × Msg} (h : d ∈ (self.join sent addrs).2) :
    d.2 = .pushPull (snapshot self.state) true := by
  unfold join at h
  dsimp only at h
  split at h
  · cases h
  · obtain ⟨addr, _, rfl⟩ := List.mem_map.1 h
    rfl

def ListsAlive (self : GossipMembership) (name addr : String) : Prop :=
  ∃ e, self.state.lookup name = some e ∧ e.member = ⟨name, addr, .alive⟩

/-- What the peer knows of a new member after the member's join: the new record is taken exactly if
the peer had none. -/
theorem lookup_receive_join {joiner : GossipMembership} (h : Fresh joiner)
    (peer : GossipMembership) {sent : String → Bool} {addrs : List String} {d : String × Msg}
    (hd : d ∈ (joiner.join sent addrs).2) :
    (peer.receive d.2).state.lookup joiner.name =
      if joiner.name ≠ peer.name ∧ peer.state.lookup joiner.name = none then
        some ⟨⟨joiner.name, joiner.addr, .alive⟩, 0⟩
      else peer.state.lookup joiner.name := by
  change (merge _ _ _).lookup _ = _
  rw [merge_eq_learnAll, join_payload hd]
  by_cases hname : joiner.name = peer.name
  · rw [hname, learnAll_self, if_neg (by simp)]
  · have hmem := (mem_snapshot_rumors h.keyed).2 h.own
    refine (lookup_learnAll (nodup_snapshot_rumors h.keyed) hmem hname).trans ?_
    cases hold : peer.state.lookup joiner.name with
    | none => simp [hname]
    | some e => simp [Entry.version]

/-- A new member is listed as alive at its address exactly if the peer had no record of its name, or
had this one already. An earlier record stays as it was. -/
theorem joiner_visible_iff {joiner : GossipMembership} (h : Fresh joiner)
    (peer : GossipMembership) {sent : String → Bool} {addrs : List String} {d : String × Msg}
    (hd : d ∈ (joiner.join sent addrs).2) :
    ((peer.receive d.2).ListsAlive joiner.name joiner.addr ↔
      (joiner.name ≠ peer.name ∧ peer.state.lookup joiner.name = none) ∨
        peer.ListsAlive joiner.name joiner.addr) ∧
    ∀ old, peer.state.lookup joiner.name = some old →
      (peer.receive d.2).state.lookup joiner.name = some old := by
  rw [ListsAlive, lookup_receive_join h peer hd]
  split
  next hnew => simp [hnew]
  next hknown => simp [hknown, ListsAlive]

/-! ## A member that comes back -/

def remembering : GossipMembership :=
  let first := start "s2" "127.0.0.1:7002"
  let peer := (start "s1" "127.0.0.1:7001").receive (.pushPull (snapshot first.state) true)
  peer.receive (.gossip (snapshot first.leave.1.state))

def joining (joiner : GossipMembership) : List (String × Msg) :=
  (joiner.join (fun _ => true) ["127.0.0.1:7001"]).2

theorem joiner_visible_iff_s3 :
    (∃ d ∈ joining (start "s3" "127.0.0.1:7003"),
      (remembering.receive d.2).ListsAlive "s3" "127.0.0.1:7003") ∧
    ∃ d ∈ joining (start "s2" "127.0.0.1:7003"), ∃ old, old.member.status = .left ∧
      (remembering.receive d.2).state.lookup "s2" = some old := by
  obtain ⟨d, hd⟩ : ∃ d, d ∈ joining (start "s3" "127.0.0.1:7003") :=
    ⟨_, List.mem_singleton.2 rfl⟩
  obtain ⟨d', hd'⟩ : ∃ d, d ∈ joining (start "s2" "127.0.0.1:7003") :=
    ⟨_, List.mem_singleton.2 rfl⟩
  have hleft : (remembering.state.lookup "s2").map (fun e => e.member.status) = some .left := by
    decide
  obtain ⟨old, hold, hstatus⟩ := Option.map_eq_some_iff.1 hleft
  exact ⟨⟨d, hd, (joiner_visible_iff (.start "s3" "127.0.0.1:7003") remembering hd).1.2
    (.inl (by decide))⟩, d', hd', old, hstatus,
      (joiner_visible_iff (.start "s2" "127.0.0.1:7003") remembering hd').2 old hold⟩

/-- Back at a new address, the member is still taken for the one that left. -/
theorem rejoined_stays_left : ¬ ∀ (joiner peer : GossipMembership), Fresh joiner →
    ∀ (sent : String → Bool) (addrs : List String), ∀ d ∈ (joiner.join sent addrs).2,
      (peer.receive d.2).ListsAlive joiner.name joiner.addr := by
  intro h
  obtain ⟨d, hd⟩ : ∃ d, d ∈ joining (start "s2" "127.0.0.1:7003") :=
    ⟨_, List.mem_singleton.2 rfl⟩
  obtain ⟨e, he, hmember⟩ := h (start "s2" "127.0.0.1:7003") remembering (.start _ _) _ _ d hd
  have hleft : ∀ d ∈ joining (start "s2" "127.0.0.1:7003"),
      ((remembering.receive d.2).state.lookup (start "s2" "127.0.0.1:7003").name).map
        (fun e => e.member.status) = some .left := by decide
  have hstatus := hleft d hd
  rw [he, Option.map_some, hmember] at hstatus
  cases hstatus

end GossipMembership
end NomadRs
