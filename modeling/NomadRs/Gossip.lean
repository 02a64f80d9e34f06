import NomadRs.Membership
import NomadRs.Transition

/-!
# Gossip among members

Any number of members with distinct names exchange datagrams. A datagram that was sent may arrive at
its destination any number of times, at any later time, or never, so the network is the list of all
datagrams sent so far. The invariant `Cluster.Sound` is about all rosters and all datagrams at once:
every record was once the named member's own.

Incarnations wrap. `NoWrap` leaves out a `leave` at the greatest incarnation, after which a member
would start over at 0 (`incarnation_wraps`).
-/

open Rumors

namespace NomadRs

/-- A member with its receive loop: `replyTo` is set between a merge and the answer that is due.
`had` is no part of the program: it lists what the member's own entry has been. -/
structure Running extends GossipMembership where
  replyTo : Option String := none
  had : List (MemberStatus × UInt64)

def GossipMembership.own (self : GossipMembership) : List (MemberStatus × UInt64) :=
  ((self.state.lookup self.name).map fun e => (e.member.status, e.incarnation)).toList

structure Datagram where
  src : String
  dst : String
  msg : Msg

structure Cluster where
  members : String → Option Running := fun _ => none
  sent : List Datagram := []

namespace Running

def start (name addr : String) : Running :=
  { GossipMembership.start name addr with had := (GossipMembership.start name addr).own }

def leave (self : Running) : Running :=
  { self.toGossipMembership.leave.1 with
    replyTo := self.replyTo
    had := self.had ++ self.toGossipMembership.leave.1.own }

def receive (self : Running) (d : Datagram) : Running :=
  { self with
    toGossipMembership := self.toGossipMembership.receive d.msg
    replyTo := if d.msg.reply then some d.src else none }

def send (self : Running) (out : List (String × Msg)) : List Datagram :=
  out.map fun (dst, msg) => { src := self.addr, dst, msg }

end Running

def Cluster.act (c : Cluster) (name : String) (p : Running) (ds : List Datagram) : Cluster where
  members := Function.update c.members name (some p)
  sent := c.sent ++ ds

inductive GossipEvent
  | start (name addr : String)
  | join (name : String) (sent : String → Bool) (addrs : List String)
  | leave (name : String)
  | receive (name : String) (d : Datagram)
  | reply (name : String)
  | relayout (name : String)

inductive GossipStep (c : Cluster) : GossipEvent → Cluster → Prop
  | start (name addr : String) : c.members name = none →
      GossipStep c (.start name addr) (c.act name (.start name addr) [])
  | join {name : String} {p : Running} (sent : String → Bool) (addrs : List String) :
      c.members name = some p →
      GossipStep c (.join name sent addrs) (c.act name p (p.send (p.join sent addrs).2))
  | leave {name : String} {p : Running} : c.members name = some p →
      GossipStep c (.leave name)
        (c.act name p.leave (p.send p.toGossipMembership.leave.2))
  | receive {name : String} {p : Running} {d : Datagram} :
      c.members name = some p → p.replyTo = none → d ∈ c.sent → d.dst = p.addr →
      GossipStep c (.receive name d) (c.act name (p.receive d) [])
  | reply {name dst : String} {p : Running} : c.members name = some p → p.replyTo = some dst →
      GossipStep c (.reply name)
        (c.act name { p with replyTo := none } (p.send [(dst, p.answer)]))
  | relayout {name : String} {p : Running} {state : Roster} :
      c.members name = some p → p.state.Relayout state →
      GossipStep c (.relayout name) (c.act name { p with state } [])

/-- Members are started, each name once, and exchange datagrams. -/
def gossip : System Cluster GossipEvent where
  start c := c = {}
  step := GossipStep

/-- No member leaves at the greatest incarnation. -/
def NoWrap (c : Cluster) : GossipEvent → Prop
  | .leave name => ∀ p, c.members name = some p → p.incarnation.toNat + 1 < 2 ^ 64
  | _ => True

/-- Alive from the start, or left later. -/
def OwnPair (pair : MemberStatus × UInt64) : Prop :=
  (pair.1 = .alive ∧ pair.2 = 0) ∨ (pair.1 = .left ∧ 0 < pair.2)

/-- What the rosters promise in a state, in the steps and in the runs from it. -/
structure Cluster.Safe (guard : Cluster → GossipEvent → Prop) (c : Cluster) : Prop where
  entries : ∀ i p m q e, c.members i = some p → c.members m = some q →
    p.state.lookup m = some e → e.member.addr = q.addr ∧
      (e.member.status, e.incarnation) ∈ q.had ∧ OwnPair (e.member.status, e.incarnation) ∧
      e.incarnation ≤ q.incarnation
  own : ∀ m p event c', c.members m = some p → guard c event → GossipStep c event c' →
    event ≠ .leave m → ∃ p', c'.members m = some p' ∧ p'.state.lookup m = p.state.lookup m
  later : ∀ c', (gossip.startingAt c).ReachableVia guard c' → ∀ i p, c.members i = some p →
    ∃ p', c'.members i = some p' ∧ ∀ m e, p.state.lookup m = some e →
      ∃ e', p'.state.lookup m = some e' ∧ e.incarnation ≤ e'.incarnation ∧
        (e.member.status = .left → e'.member.status = .left)

/-! ## The invariant -/

structure Running.Extends (p p' : Running) : Prop where
  addr : p'.addr = p.addr
  had : p.had ⊆ p'.had
  later : Later Entry.version p.state p'.state

/-- A member's own entry is its last one, and it never had another kind of entry. -/
structure Running.Own (p : Running) : Prop where
  entry : ∃ status, p.state.lookup p.name = some ⟨⟨p.name, p.addr, status⟩, p.incarnation⟩ ∧
    (status, p.incarnation) ∈ p.had
  had : ∀ pair ∈ p.had, OwnPair pair ∧ pair.2 ≤ p.incarnation

/-- The record was once the named member's own. -/
def Cluster.Authored (c : Cluster) (rumor : String × Entry) : Prop :=
  ∃ q, c.members rumor.1 = some q ∧ rumor.2.member.name = rumor.1 ∧
    rumor.2.member.addr = q.addr ∧ (rumor.2.member.status, rumor.2.incarnation) ∈ q.had

structure Cluster.Sound (c : Cluster) : Prop where
  own : ∀ m q, c.members m = some q → q.name = m ∧ q.Own
  rosters : ∀ i p k e, c.members i = some p → p.state.lookup k = some e → c.Authored (k, e)
  sent : ∀ d ∈ c.sent, ∀ w ∈ d.msg.peers, c.Authored w.rumor

def Cluster.Extends (c c' : Cluster) : Prop :=
  ∀ m p, c.members m = some p → ∃ p', c'.members m = some p' ∧ p.Extends p'

section Steps
variable {c c' : Cluster} {name : String} {p p' : Running} {ds : List Datagram}

theorem Running.Extends.refl (p : Running) : p.Extends p := ⟨rfl, List.Subset.refl _, .refl _⟩

theorem Running.Extends.trans {p'' : Running} (h : p.Extends p') (h' : p'.Extends p'') :
    p.Extends p'' :=
  ⟨h'.addr.trans h.addr, List.Subset.trans h.had h'.had, h.later.trans h'.later⟩

theorem Cluster.Extends.refl (c : Cluster) : c.Extends c := fun _ p h => ⟨p, h, .refl p⟩

theorem Cluster.Extends.trans {c'' : Cluster} (h : c.Extends c') (h' : c'.Extends c'') :
    c.Extends c'' := by
  intro m p hp
  obtain ⟨p', hp', hext⟩ := h m p hp
  obtain ⟨p'', hp'', hext'⟩ := h' m p' hp'
  exact ⟨p'', hp'', hext.trans hext'⟩

theorem Cluster.Authored.extends {rumor : String × Entry} (h : c.Authored rumor)
    (hext : c.Extends c') : c'.Authored rumor := by
  obtain ⟨q, hq, hname, haddr, hhad⟩ := h
  obtain ⟨q', hq', hq'ext⟩ := hext _ q hq
  exact ⟨q', hq', hname, haddr.trans hq'ext.addr.symm, hq'ext.had hhad⟩

theorem Cluster.act_extends (h : ∀ p, c.members name = some p → p.Extends p') :
    c.Extends (c.act name p' ds) := by
  intro m p hp
  by_cases hm : m = name
  · subst hm
    exact ⟨p', Function.update_self .., h p hp⟩
  · exact ⟨p, (Function.update_of_ne hm ..).trans hp, .refl p⟩

theorem Running.Own.authored (h : p.Own) (hp : c.members p.name = some p) {e : Entry}
    (he : p.state.lookup p.name = some e) : c.Authored (p.name, e) := by
  obtain ⟨status, hentry, hhad⟩ := h.entry
  rw [he, Option.some_inj] at hentry
  subst hentry
  exact ⟨p, hp, rfl, rfl, hhad⟩

/-- What a member may do: extend itself and learn what was authored, or send its roster. -/
theorem Cluster.Sound.act (h : c.Sound) (hext : ∀ p, c.members name = some p → p.Extends p')
    (hname : p'.name = name) (hown : p'.Own)
    (hroster : ∀ k e, k ≠ name → p'.state.lookup k = some e → c.Authored (k, e))
    (hsent : ∀ d ∈ ds, d.msg.peers = snapshot p'.state) : (c.act name p' ds).Sound := by
  have hgrow : c.Extends (c.act name p' ds) := act_extends hext
  have hself : (c.act name p' ds).members name = some p' := Function.update_self ..
  have hentries : ∀ k e, p'.state.lookup k = some e → (c.act name p' ds).Authored (k, e) := by
    intro k e he
    by_cases hk : k = name
    · subst hk
      rw [← hname] at he ⊢
      exact hown.authored (hname ▸ hself) he
    · exact (hroster k e hk he).extends hgrow
  refine ⟨fun m q hq => ?_, fun i q k e hq he => ?_, fun d hd w hw => ?_⟩
  · by_cases hm : m = name
    · subst hm
      cases hself.symm.trans hq
      exact ⟨hname, hown⟩
    · exact h.own m q ((Function.update_of_ne hm ..).symm.trans hq)
  · by_cases hi : i = name
    · subst hi
      cases hself.symm.trans hq
      exact hentries k e he
    · exact (h.rosters i q k e ((Function.update_of_ne hi ..).symm.trans hq) he).extends hgrow
  · rcases List.mem_append.1 hd with hd | hd
    · exact (h.sent d hd w hw).extends hgrow
    · have hkeyed : p'.state.Keyed := by
        intro k e he
        obtain ⟨_, _, hk, _⟩ := hentries k e he
        exact hk
      rw [hsent d hd] at hw
      have hmem := List.mem_map_of_mem (f := Wire.rumor) hw
      exact hentries _ _ ((mem_snapshot_rumors hkeyed).1 hmem)

/-! ## Steps -/

theorem Cluster.Sound.act_of_extends (h : c.Sound) (hp : c.members name = some p)
    (hext : p.Extends p') (hname : p'.name = name) (hown : p'.Own)
    (hroster : ∀ k e, k ≠ name → p'.state.lookup k = some e → c.Authored (k, e))
    (hsent : ∀ d ∈ ds, d.msg.peers = snapshot p'.state) :
    (c.act name p' ds).Sound ∧ c.Extends (c.act name p' ds) := by
  have hext' : ∀ q, c.members name = some q → q.Extends p' := by
    intro q hq
    cases hp.symm.trans hq
    exact hext
  exact ⟨h.act hext' hname hown hroster hsent, act_extends hext'⟩

theorem Running.own_start (name addr : String) : (Running.start name addr).Own := by
  have hentry : (Running.start name addr).state.lookup name =
      some ⟨⟨name, addr, .alive⟩, 0⟩ := AList.lookup_insert _
  have hown : (GossipMembership.start name addr).own = [(.alive, 0)] := by
    change (((Running.start name addr).state.lookup name).map _).toList = _
    rw [hentry]
    rfl
  refine ⟨⟨.alive, hentry, ?_⟩, fun pair hpair => ?_⟩
  · change _ ∈ (GossipMembership.start name addr).own
    rw [hown]
    exact List.mem_singleton_self _
  · change pair ∈ (GossipMembership.start name addr).own at hpair
    rw [hown, List.mem_singleton] at hpair
    subst hpair
    exact ⟨.inl ⟨rfl, rfl⟩, UInt64.le_refl _⟩

theorem Running.Own.receive (h : p.Own) (d : Datagram) : (p.receive d).Own := by
  obtain ⟨status, hentry, hhad⟩ := h.entry
  exact ⟨⟨status, merge_self.trans hentry, hhad⟩, h.had⟩

theorem Running.extends_receive (p : Running) (d : Datagram) : p.Extends (p.receive d) := by
  refine ⟨rfl, List.Subset.refl _, ?_⟩
  change Later _ _ (merge _ _ _)
  rw [merge_eq_learnAll]
  exact learnAll_later

theorem Running.Own.leave_eq (h : p.Own) :
    p.leave.state = p.state.insert p.name ⟨⟨p.name, p.addr, .left⟩, p.incarnation + 1⟩ ∧
      p.leave.had = p.had ++ [(.left, p.incarnation + 1)] := by
  obtain ⟨status, hentry, _⟩ := h.entry
  have hstate : p.leave.state =
      p.state.insert p.name ⟨⟨p.name, p.addr, .left⟩, p.incarnation + 1⟩ := by
    simp only [leave, GossipMembership.leave, hentry]
  refine ⟨hstate, congrArg (p.had ++ ·) ?_⟩
  change ((p.leave.state.lookup p.name).map fun e => (e.member.status, e.incarnation)).toList = _
  rw [hstate, AList.lookup_insert]
  rfl

theorem toNat_incarnation_succ (h : p.incarnation.toNat + 1 < 2 ^ 64) :
    (p.incarnation + 1).toNat = p.incarnation.toNat + 1 := by
  rw [UInt64.toNat_add, UInt64.toNat_one, Nat.mod_eq_of_lt h]

theorem Running.Own.leave (h : p.Own) (hwrap : p.incarnation.toNat + 1 < 2 ^ 64) :
    p.leave.Own := by
  obtain ⟨hstate, hhad⟩ := h.leave_eq
  have hsucc := toNat_incarnation_succ hwrap
  refine ⟨⟨.left, ?_, ?_⟩, fun pair hpair => ?_⟩
  · rw [hstate]
    exact AList.lookup_insert _
  · rw [hhad]
    exact List.mem_append_right _ (List.mem_singleton_self _)
  · rw [hhad, List.mem_append, List.mem_singleton] at hpair
    rcases hpair with hold | rfl
    · obtain ⟨hpair, hle⟩ := h.had pair hold
      refine ⟨hpair, ?_⟩
      rw [UInt64.le_iff_toNat_le] at hle ⊢
      exact hle.trans (hsucc ▸ Nat.le_succ _)
    · refine ⟨.inr ⟨rfl, ?_⟩, UInt64.le_refl _⟩
      rw [UInt64.lt_iff_toNat_lt, hsucc]
      exact Nat.succ_pos _

theorem Running.Own.extends_leave (h : p.Own) (hwrap : p.incarnation.toNat + 1 < 2 ^ 64) :
    p.Extends p.leave := by
  obtain ⟨hstate, hhad⟩ := h.leave_eq
  obtain ⟨status, hentry, _⟩ := h.entry
  refine ⟨rfl, hhad ▸ List.subset_append_left _ _, fun k e he => ?_⟩
  rw [hstate]
  by_cases hk : k = p.name
  · subst hk
    rw [hentry, Option.some_inj] at he
    subst he
    refine ⟨_, AList.lookup_insert _, .inr ?_⟩
    rw [Entry.version, Entry.version, toNat_incarnation_succ hwrap]
    exact Nat.lt_succ_self _
  · exact ⟨e, (AList.lookup_insert_ne hk).trans he, .inl rfl⟩

theorem GossipMembership.leave_payload {self : GossipMembership} {d : String × Msg}
    (h : d ∈ self.leave.2) : d.2.peers = snapshot self.leave.1.state := by
  obtain ⟨addr, _, rfl⟩ := List.mem_map.1 h
  rfl

/-- A step keeps the invariant and extends every member, unless an incarnation wraps. -/
theorem Cluster.Sound.step (h : c.Sound) {event : GossipEvent} (hwrap : NoWrap c event)
    (hstep : GossipStep c event c') : c'.Sound ∧ c.Extends c' := by
  cases hstep with
  | start name addr hnew =>
      have hnone : ∀ p, c.members name = some p → p.Extends (.start name addr) := by
        rw [hnew]
        exact fun _ hp => nomatch hp
      refine ⟨h.act hnone rfl (Running.own_start name addr) (fun k e hk he => ?_) (by simp),
        act_extends hnone⟩
      rcases HashMap.lookup_insert_eq_some.1 he with ⟨hself, _⟩ | ⟨_, he⟩
      · exact absurd hself hk
      · simp at he
  | @join name p sent addrs hp =>
      obtain ⟨hname, hown⟩ := h.own name p hp
      refine h.act_of_extends hp (.refl p) hname hown (fun k e _ he => h.rosters name p k e hp he)
        fun d hd => ?_
      obtain ⟨out, hout, rfl⟩ := List.mem_map.1 hd
      exact congrArg Msg.peers (GossipMembership.join_payload hout)
  | @leave name p hp =>
      obtain ⟨hname, hown⟩ := h.own name p hp
      refine h.act_of_extends hp (hown.extends_leave (hwrap p hp)) hname
        (hown.leave (hwrap p hp)) (fun k e hk he => ?_) fun d hd => ?_
      · rw [hown.leave_eq.1, AList.lookup_insert_ne (hname ▸ hk)] at he
        exact h.rosters name p k e hp he
      · obtain ⟨out, hout, rfl⟩ := List.mem_map.1 hd
        exact GossipMembership.leave_payload hout
  | @receive name p d hp hidle hsent hdst =>
      obtain ⟨hname, hown⟩ := h.own name p hp
      refine h.act_of_extends hp (p.extends_receive d) hname (hown.receive d) (fun k e _ he => ?_)
        (by simp)
      change (merge _ _ _).lookup k = some e at he
      rw [merge_eq_learnAll] at he
      rcases eq_or_mem_of_learnAll he with he | hmem
      · exact h.rosters name p k e hp he
      · obtain ⟨w, hw, heq⟩ := List.mem_map.1 hmem
        exact heq ▸ h.sent d hsent w hw
  | @reply name dst p hp hdue =>
      obtain ⟨hname, hown⟩ := h.own name p hp
      refine h.act_of_extends hp ⟨rfl, List.Subset.refl _, .refl _⟩ hname ⟨hown.entry, hown.had⟩
        (fun k e _ he => h.rosters name p k e hp he) fun d hd => ?_
      obtain ⟨out, hout, rfl⟩ := List.mem_map.1 hd
      rw [List.mem_singleton.1 hout]
      rfl
  | @relayout name p state hp hstate =>
      obtain ⟨hname, hown⟩ := h.own name p hp
      have hlookup (k : String) : state.lookup k = p.state.lookup k := (hstate.lookup_eq k).symm
      obtain ⟨status, hentry, hhad⟩ := hown.entry
      refine h.act_of_extends hp ⟨rfl, List.Subset.refl _, fun k e he => ?_⟩ hname
        ⟨⟨status, (hlookup _).trans hentry, hhad⟩, hown.had⟩ (fun k e _ he => ?_) (by simp)
      · exact ⟨e, (hlookup k).trans he, .inl rfl⟩
      · exact h.rosters name p k e hp ((hlookup k).symm.trans he)

/-! ## Runs -/

theorem Cluster.Sound.of_reachable (h : gossip.ReachableVia NoWrap c) : c.Sound := by
  refine h.invariant Cluster.Sound ?_ fun _ _ _ hs hwrap hstep => (hs.step hwrap hstep).1
  rintro _ rfl
  exact ⟨by simp, by simp, by simp⟩

theorem Cluster.Sound.run (h : c.Sound) (hrun : (gossip.startingAt c).ReachableVia NoWrap c') :
    c'.Sound ∧ c.Extends c' := by
  refine System.ReachableVia.related (fun c c' => c'.Sound ∧ c.Extends c') ⟨h, .refl c⟩ ?_ hrun
  intro c₁ event c₂ ⟨hs, hext⟩ hwrap hstep
  obtain ⟨hs', hext'⟩ := hs.step hwrap hstep
  exact ⟨hs', hext.trans hext'⟩

theorem Cluster.lookup_act {m : String} {q : Running} (hq : c.members m = some q)
    (hsame : m = name → p'.state.lookup m = q.state.lookup m) :
    ∃ q', (c.act name p' ds).members m = some q' ∧ q'.state.lookup m = q.state.lookup m := by
  by_cases hm : m = name
  · subst hm
    exact ⟨p', Function.update_self .., hsame rfl⟩
  · exact ⟨q, (Function.update_of_ne hm ..).trans hq, rfl⟩

theorem Cluster.Sound.own_eq (h : c.Sound) {event : GossipEvent} {m : String} {q : Running}
    (hq : c.members m = some q) (hstep : GossipStep c event c') (hne : event ≠ .leave m) :
    ∃ q', c'.members m = some q' ∧ q'.state.lookup m = q.state.lookup m := by
  obtain ⟨hname, _⟩ := h.own m q hq
  cases hstep with
  | start name addr hnew =>
      refine lookup_act hq fun hm => ?_
      rw [← hm, hq] at hnew
      cases hnew
  | join sent addrs hp =>
      refine lookup_act hq fun hm => ?_
      cases (hm ▸ hq).symm.trans hp
      rfl
  | leave hp => exact lookup_act hq fun hm => absurd (congrArg GossipEvent.leave hm.symm) hne
  | receive hp hidle hsent hdst =>
      refine lookup_act hq fun hm => ?_
      cases (hm ▸ hq).symm.trans hp
      rw [← hname]
      exact merge_self
  | reply hp hdue =>
      refine lookup_act hq fun hm => ?_
      cases (hm ▸ hq).symm.trans hp
      rfl
  | relayout hp hstate =>
      refine lookup_act hq fun hm => ?_
      cases (hm ▸ hq).symm.trans hp
      exact (hstate.lookup_eq m).symm

/-- As long as no incarnation wraps, every record is one that the named member had, members change
their own entries by leaving only, incarnations never decrease, and who has left stays so. -/
theorem gossip_safe (h : gossip.ReachableVia NoWrap c) : c.Safe NoWrap := by
  have hs := Cluster.Sound.of_reachable h
  refine ⟨fun i p m q e hp hq he => ?_, fun m p event c' hp _ hstep hne => hs.own_eq hp hstep hne,
    fun c' hrun i p hp => ?_⟩
  · obtain ⟨q', hq', _, haddr, hhad⟩ := hs.rosters i p m e hp he
    cases hq.symm.trans hq'
    obtain ⟨hpair, hle⟩ := (hs.own m q hq).2.had _ hhad
    exact ⟨haddr, hhad, hpair, hle⟩
  · obtain ⟨hs', hext⟩ := hs.run hrun
    obtain ⟨p', hp', hlater⟩ := hext i p hp
    refine ⟨p', hp', fun m e he => ?_⟩
    obtain ⟨e', he', hle⟩ := hlater.later m e he
    refine ⟨e', he', ?_⟩
    rcases hle with rfl | hlt
    · exact ⟨UInt64.le_refl _, id⟩
    · obtain ⟨q, hq, _, _, hhad⟩ := hs'.rosters i p' m e' hp' he'
      have hpair := ((hs'.own m q hq).2.had _ hhad).1
      refine ⟨UInt64.le_iff_toNat_le.2 hlt.le, fun _ => ?_⟩
      rcases hpair with ⟨_, hzero⟩ | ⟨hleft, _⟩
      · have hzero' : e'.incarnation.toNat = 0 := by rw [show e'.incarnation = 0 from hzero]; rfl
        rw [Entry.version, Entry.version, hzero'] at hlt
        exact absurd hlt (Nat.not_lt_zero _)
      · exact hleft

end Steps
/-! ## A member that has joined, and one that leaves too often -/

def metPeers : Cluster :=
  let s1 := Running.start "s1" "127.0.0.1:7001"
  let s2 := Running.start "s2" "127.0.0.1:7002"
  let d : Datagram := ⟨s2.addr, s1.addr, .pushPull (snapshot s2.state) true⟩
  (((({} : Cluster).act "s1" s1 []).act "s2" s2 []).act "s2" s2 [d]).act "s1" (s1.receive d) []

theorem metPeers_reachable : gossip.ReachableVia NoWrap metPeers := by
  have hs1 := System.ReachableVia.next (S := gossip) (.start rfl)
    (.start "s1" "127.0.0.1:7001" rfl) (show NoWrap {} _ from trivial)
  have hs2 := hs1.next (.start "s2" "127.0.0.1:7002" rfl) trivial
  have hjoin := hs2.next (@GossipStep.join _ "s2" (.start "s2" "127.0.0.1:7002") (fun _ => true)
    ["127.0.0.1:7001"] rfl) trivial
  exact hjoin.next (@GossipStep.receive _ "s1" (.start "s1" "127.0.0.1:7001") _ rfl rfl
    (List.mem_singleton_self _) rfl) trivial

theorem gossip_safe_metPeers : metPeers.Safe NoWrap ∧ ∃ p, metPeers.members "s1" = some p ∧
    p.state.lookup "s2" = some ⟨⟨"s2", "127.0.0.1:7002", .alive⟩, 0⟩ :=
  ⟨gossip_safe metPeers_reachable, _, rfl, by decide⟩

theorem reachable_leaving (n : ℕ) : ∃ c p e, gossip.Reachable c ∧ c.members "s1" = some p ∧
    p.name = "s1" ∧ p.incarnation = UInt64.ofNat n ∧ p.state.lookup "s1" = some e ∧
    e.incarnation = p.incarnation ∧ (0 < n → e.member.status = .left) := by
  induction n with
  | zero =>
      have hstart : gossip.Reachable _ :=
        System.Reachable.next (.start rfl) (.start "s1" "127.0.0.1:7001" rfl)
      exact ⟨_, _, _, hstart, rfl, rfl, rfl, AList.lookup_insert _, rfl, by simp⟩
  | succ n ih =>
      obtain ⟨c, p, e, hreach, hp, hname, hinc, hentry, _, _⟩ := ih
      have hstate : p.leave.state =
          p.state.insert p.name ⟨{ e.member with status := .left }, p.incarnation + 1⟩ := by
        rw [← hname] at hentry
        simp only [Running.leave, GossipMembership.leave, hentry]
      refine ⟨_, p.leave, ⟨{ e.member with status := .left }, p.incarnation + 1⟩,
        hreach.next (.leave hp), rfl, hname, ?_, ?_, rfl, fun _ => rfl⟩
      · change p.incarnation + 1 = _
        rw [hinc, UInt64.ofNat_add]
        rfl
      · rw [hstate, ← hname]
        exact AList.lookup_insert _

/-- After `2 ^ 64` calls of `leave` the member is listed as left at incarnation 0. -/
theorem incarnation_wraps :
    ¬ ∀ c, gossip.Reachable c → c.Safe fun _ _ => True := by
  intro h
  obtain ⟨c, p, e, hreach, hp, _, hinc, hentry, hsame, hleft⟩ := reachable_leaving (2 ^ 64)
  obtain ⟨_, _, ⟨halive, _⟩ | ⟨_, hpos⟩, _⟩ := (h c hreach).entries _ _ _ _ _ hp hp hentry
  · rw [hleft (by positivity)] at halive
    cases halive
  · change 0 < e.incarnation at hpos
    rw [hsame, hinc] at hpos
    revert hpos
    decide

end NomadRs
