import NomadRs.Release

/-!
# Scores in exact arithmetic

The scorer over the rationals. A node that is left with less after a placement scores higher, since
more of it is in use, except that a placement that leaves nothing at all gets no bonus
(`tighter_scores_higher_iff`); this is said of `Release.scoreNode`, where what is left fits.

A spread compares the share of the live allocations on one value of its attribute with a share
declared for this value. Values that no target names, or none with more than 0 percent, get an even
share of the whole instead (`bonusFor_eq_declared_iff`).
-/

namespace NomadRs

/-! ## Bin packing -/

theorem utilisation_eq (total left : Int) :
    utilisation ℚ total left = if 0 < total then ((total - left : Int) : ℚ) / total else 0 := by
  unfold utilisation
  split <;> simp_all [F64.ofInt]

theorem utilisation_antitone {total left₁ left₂ : Int} (h : left₁ ≤ left₂) :
    utilisation ℚ total left₂ ≤ utilisation ℚ total left₁ := by
  rw [utilisation_eq, utilisation_eq]
  split
  next hpos =>
    have htotal : (0 : ℚ) < total := by exact_mod_cast hpos
    gcongr
  next => exact le_rfl

/-- The fractions of its resources that a node has in use while `left` is free, added up. -/
def inUse (node : Node) (left : Resources) : ℚ :=
  utilisation ℚ node.resources.cpuMhz left.cpuMhz +
    utilisation ℚ node.resources.memoryMb left.memoryMb +
    utilisation ℚ node.resources.networkMbps left.networkMbps

theorem inUse_antitone (node : Node) {left₁ left₂ : Resources} (h : left₁ ≤ left₂) :
    inUse node left₂ ≤ inUse node left₁ := by
  obtain ⟨hcpu, hmem, hnet⟩ := h
  exact add_le_add (add_le_add (utilisation_antitone hcpu) (utilisation_antitone hmem))
    (utilisation_antitone hnet)

def Resources.SomeLeft (left : Resources) : Prop :=
  0 < left.cpuMhz ∨ 0 < left.memoryMb ∨ 0 < left.networkMbps

instance (left : Resources) : Decidable left.SomeLeft := inferInstanceAs (Decidable (_ ∨ _ ∨ _))

def packingBonus (node : Node) (left : Resources) : ℚ :=
  if left.SomeLeft then inUse node left / 3 * 50 else 0

theorem someLeft_sub_iff {need free : Resources} (h : need ≤ free) :
    (free - need).SomeLeft ↔ free ≠ need := by
  obtain ⟨hcpu, hmem, hnet⟩ := h
  rw [Ne, Resources.ext_iff, Resources.SomeLeft]
  simp only [Resources.sub_cpuMhz, Resources.sub_memoryMb, Resources.sub_networkMbps]
  omega

section Scores
variable [Crates] {node : Node} {group : TaskGroup} {need free₁ free₂ : Resources} {bonus : ℚ}

def affinityScore (node : Node) (group : TaskGroup) : ℚ :=
  group.affinities.foldl (fun score affinity =>
    if affinity.satisfiedBy node.attributes then score + affinity.weight else score) 0

theorem scoreNode_eq (node : Node) (free need : Resources) (group : TaskGroup) (bonus : ℚ) :
    scoreNode ℚ node free need group bonus =
      affinityScore node group + packingBonus node (free - need) + bonus := by
  have hleft : (0 < (free - need).cpuMhz || 0 < (free - need).memoryMb ||
      0 < (free - need).networkMbps) = true ↔ (free - need).SomeLeft := by
    simp [Resources.SomeLeft, or_assoc]
  change (if (0 < (free - need).cpuMhz || 0 < (free - need).memoryMb ||
      0 < (free - need).networkMbps) = true then
    affinityScore node group + inUse node (free - need) / 3 * 50
    else affinityScore node group) + bonus = _
  rw [packingBonus]
  by_cases h : (free - need).SomeLeft
  · rw [if_pos h, if_pos (hleft.2 h)]
  · rw [if_neg h, if_neg (mt hleft.1 h), add_zero]

/-- What is left of a node and what is in use of it are values of type `i32` if the former is not
too large, as it is for demands that are not negative. -/
theorem scoreNode_release_eq (hnode : node.resources.I32) (hneed : need.I32) (h : need ≤ free₁)
    (hfree : free₁ ≤ node.resources) (hleft : free₁ - need ≤ Resources.i32Max) :
    Release.scoreNode ℚ node free₁ need group bonus =
      affinityScore node group + packingBonus node (free₁ - need) + bonus := by
  have hpos : 0 ≤ free₁ - need := sub_nonneg.2 h
  have hused : (node.resources - (free₁ - need)).I32 := by
    refine ⟨hneed.1.trans ?_, (sub_le_self _ hpos).trans hnode.2⟩
    rw [sub_sub_eq_add_sub]
    exact le_sub_iff_add_le'.2 (add_le_add_left hfree need)
  rw [Release.scoreNode_eq ⟨le_trans (by decide) hpos, hleft⟩ hused, scoreNode_eq]

/-- With less free, a node scores at least as high, unless the demand takes all that is free and
would leave a node that is in use with more free. -/
theorem tighter_scores_higher_iff (hnode : node.resources.I32) (hneed : need.I32)
    (h₁ : need ≤ free₁) (h₁₂ : free₁ ≤ free₂) (h₂ : free₂ ≤ node.resources)
    (hleft : free₂ - need ≤ Resources.i32Max) :
    Release.scoreNode ℚ node free₂ need group bonus ≤
        Release.scoreNode ℚ node free₁ need group bonus ↔
      free₁ ≠ need ∨ free₂ = need ∨ inUse node (free₂ - need) ≤ 0 := by
  have hsub : free₁ - need ≤ free₂ - need := sub_le_sub_right h₁₂ need
  rw [scoreNode_release_eq hnode hneed (h₁.trans h₁₂) h₂ hleft,
    scoreNode_release_eq hnode hneed h₁ (h₁₂.trans h₂) (hsub.trans hleft), add_le_add_iff_right,
    add_le_add_iff_left, packingBonus, packingBonus]
  simp only [someLeft_sub_iff h₁, someLeft_sub_iff (h₁.trans h₁₂)]
  by_cases hfull₁ : free₁ = need
  · by_cases hfull₂ : free₂ = need
    · simp [hfull₁, hfull₂]
    · simp only [hfull₁, hfull₂, ne_eq, not_true_eq_false, not_false_eq_true, if_true, if_false,
        false_or]
      constructor <;> intro h <;> linarith
  · have hfull₂ : free₂ ≠ need := fun h => hfull₁ ((h ▸ h₁₂).antisymm h₁)
    have hle := inUse_antitone node hsub
    simp only [hfull₁, hfull₂, ne_eq, not_false_eq_true, if_true, true_or, iff_true]
    linarith

end Scores

section Scores
attribute [local instance] Crates.literal

def cacheGroup : TaskGroup where
  name := "cache"
  count := 1
  tasks := [{ name := "redis", driver := "docker", resources := ⟨500, 512, 10⟩ }]
  constraints := []
  affinities := []
  spreads := []

theorem tighter_scores_higher_iff_oneNode :
    Release.scoreNode ℚ oneNode oneNode.resources ⟨500, 512, 10⟩ cacheGroup 0 ≤
      Release.scoreNode ℚ oneNode ⟨600, 512, 10⟩ ⟨500, 512, 10⟩ cacheGroup 0 :=
  (tighter_scores_higher_iff (by decide) (by decide) (by decide) (by decide) (by decide)
    (by decide)).2 (.inl (by decide))

/-- A node that the demand fits exactly scores lower than one with more free. -/
theorem exact_fit_scores_lower : ¬ ∀ (node : Node) (group : TaskGroup)
    (need free₁ free₂ : Resources) (bonus : ℚ), node.resources.I32 → need.I32 →
      0 ≤ node.resources → need ≤ free₁ → free₁ ≤ free₂ → free₂ ≤ node.resources →
        Release.scoreNode ℚ node free₂ need group bonus ≤
          Release.scoreNode ℚ node free₁ need group bonus := by
  intro h
  have hle := h oneNode cacheGroup ⟨500, 512, 10⟩ ⟨500, 512, 10⟩ ⟨600, 512, 10⟩ 0 (by decide)
    (by decide) (by decide) (by decide) (by decide) (by decide)
  revert hle
  decide +kernel

end Scores

/-! ## Spreads -/

/-- The percentage of the live allocations that sit on nodes with the value. -/
def currentShare (state : StateStore) (attr value : String) : ℚ :=
  let live := state.listAllocs.filter fun a => isLive a.clientStatus
  let sameVal := live.filter fun a =>
    (state.getNode a.nodeId).any fun n => n.attributes.lookup attr == some value
  sameVal.length / live.length * 100

def presentValues (state : StateStore) (attr : String) : List String :=
  (state.listNodes.filterMap fun n => n.attributes.lookup attr).dedup

namespace Spread

def Names (self : Spread) (value : String) : Prop := ∃ t ∈ self.targets, t.value = value

instance (self : Spread) (value : String) : Decidable (self.Names value) :=
  inferInstanceAs (Decidable (∃ t ∈ self.targets, _))

def targetPercent (self : Spread) (value : String) : ℚ :=
  ((self.targets.filter fun t => t.value == value).map fun t => (t.percent : ℚ)).sum

def remainingPercent (self : Spread) : ℚ :=
  100 - (self.targets.map fun t => (t.percent : ℚ)).sum

/-- The share declared for a value: that of its targets, or an equal part of what remains. -/
def declaredShare (self : Spread) (state : StateStore) (value : String) : ℚ :=
  if self.Names value then self.targetPercent value
  else self.remainingPercent /
    ((presentValues state self.attr).filter fun v => ¬ self.Names v).length

def evenShare (self : Spread) (state : StateStore) : ℚ :=
  100 / (max (presentValues state self.attr).length 1 : ℕ)

/-- By how much an even share, where it is taken, misses the declared one. -/
def shareGap (self : Spread) (state : StateStore) (value : String) : ℚ :=
  if 0 < self.targetPercent value then 0
  else if self.Names value then -self.evenShare state
  else self.remainingPercent /
    ((presentValues state self.attr).filter fun v => ¬ self.Names v).length - self.evenShare state

theorem targetPercent_nonneg (self : Spread) (value : String) : 0 ≤ self.targetPercent value := by
  refine List.sum_nonneg fun p hp => ?_
  obtain ⟨t, _, rfl⟩ := List.mem_map.1 hp
  exact Nat.cast_nonneg _

theorem targetPercent_eq_zero {self : Spread} {value : String} (h : ¬ self.Names value) :
    self.targetPercent value = 0 := by
  have hnone : self.targets.filter (fun t => t.value == value) = [] :=
    List.filter_eq_nil_iff.2 fun t ht heq => h ⟨t, ht, by simpa using heq⟩
  rw [targetPercent, hnone]
  rfl

/-- The share that is used: that of the targets if it is positive, else an even one. -/
def usedShare (self : Spread) (state : StateStore) (value : String) : ℚ :=
  if 0 < self.targetPercent value then self.targetPercent value else self.evenShare state

theorem declaredShare_sub_shareGap (self : Spread) (state : StateStore) (value : String) :
    self.declaredShare state value - self.shareGap state value = self.usedShare state value := by
  rw [declaredShare, shareGap, usedShare]
  by_cases hnames : self.Names value
  · by_cases hpos : 0 < self.targetPercent value
    · simp only [if_pos hnames, if_pos hpos, sub_zero]
    · have hzero := le_antisymm (not_lt.1 hpos) (self.targetPercent_nonneg value)
      rw [if_pos hnames, if_neg hpos, if_pos hnames, if_neg hpos, hzero, zero_sub, neg_neg]
  · have hpos : ¬ 0 < self.targetPercent value := by simp [targetPercent_eq_zero hnames]
    simp only [if_neg hnames, if_neg hpos, sub_sub_cancel]

end Spread

/-- Adds up what the spreads have to say about a node, those whose attribute it has. -/
def spreadSum (group : TaskGroup) (node : Node) (f : Spread → String → ℚ) : ℚ :=
  (group.spreads.map fun spread =>
    ((node.attributes.lookup spread.attr).map (f spread)).getD 0).sum

def declaredBonus (group : TaskGroup) (node : Node) (state : StateStore) : ℚ :=
  spreadSum group node fun spread value =>
    spread.declaredShare state value - currentShare state spread.attr value

theorem foldl_percents (targets : List SpreadTarget) (p : ℚ) :
    targets.foldl (fun sum t => sum + F64.ofInt t.percent) p =
      p + (targets.map fun t => (t.percent : ℚ)).sum := by
  induction targets generalizing p with
  | nil => simp
  | cons t targets ih =>
      rw [List.foldl_cons, ih, List.map_cons, List.sum_cons, ← add_assoc]
      rfl

theorem spreadStep_eq {node : Node} {state : StateStore}
    (hlive : (state.listAllocs.filter fun a => isLive a.clientStatus) ≠ []) (bonus : ℚ)
    (spread : Spread) : spreadStep ℚ node state bonus spread =
      bonus + ((node.attributes.lookup spread.attr).map fun value =>
        spread.usedShare state value - currentShare state spread.attr value).getD 0 := by
  unfold spreadStep
  cases hvalue : node.attributes.lookup spread.attr with
  | none => simp
  | some value =>
      have hlen := mt List.length_eq_zero_iff.1 hlive
      have hexplicit : (spread.targets.filter fun t => t.value == value).foldl
          (fun (sum : ℚ) t => sum + F64.ofInt t.percent) (F64.ofInt 0) =
            spread.targetPercent value := (foldl_percents _ _).trans (zero_add _)
      simp only [if_neg hlen, hexplicit]
      rw [Option.map_some, Option.getD_some]
      change bonus - (currentShare state spread.attr value -
        if decide (0 < spread.targetPercent value) = true then spread.targetPercent value
        else spread.evenShare state) * 1 = _
      simp only [decide_eq_true_eq, Spread.usedShare]
      ring

theorem bonusFor_eq {node : Node} {state : StateStore}
    (hlive : (state.listAllocs.filter fun a => isLive a.clientStatus) ≠ []) (group : TaskGroup) :
    bonusFor ℚ group node state = spreadSum group node fun spread value =>
      spread.usedShare state value - currentShare state spread.attr value := by
  have hfold (spreads : List Spread) (bonus : ℚ) :
      spreads.foldl (spreadStep ℚ node state) bonus = bonus + (spreads.map fun spread =>
        ((node.attributes.lookup spread.attr).map fun value =>
          spread.usedShare state value - currentShare state spread.attr value).getD 0).sum := by
    induction spreads generalizing bonus with
    | nil => simp
    | cons spread spreads ih =>
        rw [List.foldl_cons, ih, spreadStep_eq hlive, List.map_cons, List.sum_cons, add_assoc]
  exact (hfold group.spreads 0).trans (zero_add _)

theorem spreadSum_add (group : TaskGroup) (node : Node) (f g : Spread → String → ℚ) :
    spreadSum group node f + spreadSum group node g =
      spreadSum group node fun spread value => f spread value + g spread value := by
  rw [spreadSum, spreadSum, ← List.sum_map_add]
  refine congrArg List.sum (List.map_congr_left fun spread _ => ?_)
  cases node.attributes.lookup spread.attr <;> simp

theorem bonusFor_add_gaps {node : Node} {state : StateStore}
    (hlive : (state.listAllocs.filter fun a => isLive a.clientStatus) ≠ []) (group : TaskGroup) :
    bonusFor ℚ group node state +
        spreadSum group node (fun spread value => spread.shareGap state value) =
      declaredBonus group node state := by
  rw [bonusFor_eq hlive, spreadSum_add, declaredBonus]
  refine congrArg (spreadSum group node) (funext₂ fun spread value => ?_)
  rw [← spread.declaredShare_sub_shareGap]
  ring

/-- The bonus follows the declared targets exactly when the gaps add up to nothing. -/
theorem bonusFor_eq_declared_iff {node : Node} {state : StateStore}
    (hlive : (state.listAllocs.filter fun a => isLive a.clientStatus) ≠ []) (group : TaskGroup) :
    bonusFor ℚ group node state = declaredBonus group node state ↔
      spreadSum group node (fun spread value => spread.shareGap state value) = 0 := by
  rw [← bonusFor_add_gaps hlive, left_eq_add]

/-! ## A value with a target of 0 percent -/

section Scores
attribute [local instance] Crates.literal

def rackState : StateStore :=
  let node := { oneNode with
    attributes := (∅ : HashMap String String).insert "rack" "rack-1" }
  (processAndApply ℚ (webEval "eval-1") (Fsm.registered [node] (webJob 1))).2.state

def spreadGroup (percent : ℕ) : TaskGroup :=
  { cacheGroup with spreads := [{ attr := "rack", targets := [⟨"rack-1", percent⟩] }] }

theorem bonusFor_eq_declared_iff_rackState : ∃ node ∈ rackState.listNodes,
    bonusFor ℚ (spreadGroup 60) node rackState = declaredBonus (spreadGroup 60) node rackState := by
  have hlive : (rackState.listAllocs.filter fun a => isLive a.clientStatus) ≠ [] := by decide
  have hgap : ∀ node ∈ rackState.listNodes, spreadSum (spreadGroup 60) node
      (fun spread value => spread.shareGap rackState value) = 0 := by decide +kernel
  obtain ⟨node, hnode⟩ : ∃ node, node ∈ rackState.listNodes := ⟨_, List.mem_singleton.2 rfl⟩
  exact ⟨node, hnode, (bonusFor_eq_declared_iff hlive _).2 (hgap node hnode)⟩

/-- A value that is to get nothing is treated as one that nothing was said about. -/
theorem zero_target_ignored : ¬ ∀ (group : TaskGroup) (node : Node) (state : StateStore),
    (∀ spread ∈ group.spreads, spread.validate = .ok ()) → node ∈ state.listNodes →
      (state.listAllocs.filter fun a => isLive a.clientStatus) ≠ [] →
        bonusFor ℚ group node state = declaredBonus group node state := by
  intro h
  obtain ⟨node, hnode⟩ : ∃ node, node ∈ rackState.listNodes := ⟨_, List.mem_singleton.2 rfl⟩
  have heq := h (spreadGroup 0) node rackState (by decide) hnode (by decide)
  have hne : ∀ node ∈ rackState.listNodes,
      bonusFor ℚ (spreadGroup 0) node rackState ≠ declaredBonus (spreadGroup 0) node rackState := by
    decide +kernel
  exact hne node hnode heq

end Scores
end NomadRs
