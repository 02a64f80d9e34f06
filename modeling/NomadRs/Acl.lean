import NomadRs.HashMap

/-!
# Access control decisions

`Token.allows` walks the policy list and answers at the first attached policy that decides. The
documented rule is that an explicit deny always wins. `allows_iff_denyWins` says exactly on
which lists the two agree, and `allows_perm_iff` when the order of the list is irrelevant.
-/

namespace NomadRs

/-- Capability levels, in their declaration order `read < write < deny`. -/
inductive Capability
  | read | write | deny
  deriving DecidableEq

def Capability.rank : Capability → Nat
  | .read => 0
  | .write => 1
  | .deny => 2

structure Policy where
  name : String
  rules : HashMap String Capability

structure Token where
  accessor : String
  secret : String
  policies : List String
  management : Bool

namespace Token

def allowsLoop (self : Token) (resource : String) (capability : Capability) :
    List Policy → Bool
  | [] => false
  | policy :: policies =>
    if !self.policies.contains policy.name then self.allowsLoop resource capability policies
    else
      match policy.rules.lookup resource with
      | some .deny => false
      | some grant =>
        if capability.rank ≤ grant.rank then true
        else self.allowsLoop resource capability policies
      | none => self.allowsLoop resource capability policies

def allows (self : Token) (resource : String) (capability : Capability)
    (policies : List Policy) : Bool :=
  if self.management then true else self.allowsLoop resource capability policies

def Denies (self : Token) (resource : String) (policy : Policy) : Prop :=
  policy.name ∈ self.policies ∧ policy.rules.lookup resource = some .deny

def Grants (self : Token) (resource : String) (capability : Capability) (policy : Policy) : Prop :=
  policy.name ∈ self.policies ∧
    ∃ grant, policy.rules.lookup resource = some grant ∧ capability.rank ≤ grant.rank

/-- The documented decision: management tokens always pass, else an explicit deny always wins. -/
def DenyWins (self : Token) (resource : String) (capability : Capability)
    (policies : List Policy) : Prop :=
  self.management = true ∨
    ((∀ p ∈ policies, ¬ self.Denies resource p) ∧
      ∃ p ∈ policies, self.Grants resource capability p)

/-- An attached policy that grants enough stands before the first attached one that denies. -/
def GrantBeforeDeny (self : Token) (resource : String) (capability : Capability)
    (policies : List Policy) : Prop :=
  ∃ l₁ q l₂, policies = l₁ ++ q :: l₂ ∧ self.Denies resource q ∧
    (∀ r ∈ l₁, ¬ self.Denies resource r) ∧ ∃ p ∈ l₁, self.Grants resource capability p

def Conflict (self : Token) (resource : String) (capability : Capability)
    (policies : List Policy) : Prop :=
  ∃ p ∈ policies, ∃ q ∈ policies, self.Grants resource capability p ∧
    ¬ self.Denies resource p ∧ self.Denies resource q

instance (self : Token) (resource : String) (policy : Policy) :
    Decidable (self.Denies resource policy) := inferInstanceAs (Decidable (_ ∧ _))

variable {self : Token} {resource : String} {capability : Capability} {ps : List Policy}

/-- The loop answers `true` when a granting policy comes before every denying one. -/
theorem allowsLoop_iff : self.allowsLoop resource capability ps = true ↔
    ∃ l₁ p l₂, ps = l₁ ++ p :: l₂ ∧ self.Grants resource capability p ∧
      ¬ self.Denies resource p ∧ ∀ r ∈ l₁, ¬ self.Denies resource r := by
  induction ps with
  | nil => simp [allowsLoop]
  | cons policy ps ih =>
      -- a policy that neither grants nor denies hands the decision to the rest of the list
      have skip (hg : ¬ self.Grants resource capability policy)
          (hd : ¬ self.Denies resource policy) :
          self.allowsLoop resource capability ps = true ↔ ∃ l₁ p l₂, policy :: ps = l₁ ++ p :: l₂ ∧
            self.Grants resource capability p ∧ ¬ self.Denies resource p ∧
              ∀ r ∈ l₁, ¬ self.Denies resource r := by
        rw [ih]
        constructor
        · rintro ⟨l₁, p, l₂, rfl, hp⟩
          exact ⟨policy :: l₁, p, l₂, rfl, hp.1, hp.2.1, List.forall_mem_cons.2 ⟨hd, hp.2.2⟩⟩
        · rintro ⟨_ | ⟨r, l₁⟩, p, l₂, he, hp⟩
          · obtain ⟨rfl, rfl⟩ := List.cons.inj he
            exact absurd hp.1 hg
          · obtain ⟨rfl, rfl⟩ := List.cons.inj he
            exact ⟨l₁, p, l₂, rfl, hp.1, hp.2.1, (List.forall_mem_cons.1 hp.2.2).2⟩
      by_cases ha : policy.name ∈ self.policies
      · cases hr : policy.rules.lookup resource with
        | none =>
            rw [← skip (by simp [Grants, hr]) (by simp [Denies, hr])]
            simp [allowsLoop, ha, hr]
        | some grant =>
            by_cases hd : grant = .deny
            · subst hd
              have hden : self.Denies resource policy := ⟨ha, hr⟩
              simp only [allowsLoop, List.contains_eq_mem, ha, decide_true, Bool.not_true, hr,
                Bool.false_eq_true, ↓reduceIte, false_iff]
              rintro ⟨_ | ⟨r, l₁⟩, p, l₂, he, hp⟩
              · obtain ⟨rfl, rfl⟩ := List.cons.inj he
                exact hp.2.1 hden
              · obtain ⟨rfl, rfl⟩ := List.cons.inj he
                exact (List.forall_mem_cons.1 hp.2.2).1 hden
            · have hden : ¬ self.Denies resource policy := by simp [Denies, hr, hd]
              have hstep : self.allowsLoop resource capability (policy :: ps) =
                  if capability.rank ≤ grant.rank then true
                  else self.allowsLoop resource capability ps := by
                cases grant <;> simp_all [allowsLoop]
              rw [hstep]
              by_cases hle : capability.rank ≤ grant.rank
              · simp only [hle, if_true, true_iff]
                exact ⟨[], policy, ps, rfl, ⟨ha, grant, hr, hle⟩, hden, by simp⟩
              · rw [if_neg hle]
                exact skip (by simp [Grants, hr, hle]) hden
      · rw [← skip (by simp [Grants, ha]) (by simp [Denies, ha])]
        simp [allowsLoop, ha]

theorem allows_iff (hm : self.management = false) : self.allows resource capability ps = true ↔
    ∃ l₁ p l₂, ps = l₁ ++ p :: l₂ ∧ self.Grants resource capability p ∧
      ¬ self.Denies resource p ∧ ∀ r ∈ l₁, ¬ self.Denies resource r := by
  simp only [allows, hm, Bool.false_eq_true, if_false, allowsLoop_iff]

theorem exists_first_deny (h : ∃ q ∈ ps, self.Denies resource q) :
    ∃ l₁ q l₂, ps = l₁ ++ q :: l₂ ∧ self.Denies resource q ∧
      ∀ r ∈ l₁, ¬ self.Denies resource r := by
  induction ps with
  | nil => simp at h
  | cons p ps ih =>
      by_cases hp : self.Denies resource p
      · exact ⟨[], p, ps, rfl, hp, by simp⟩
      · obtain ⟨q, hq, hd⟩ := h
        rcases List.mem_cons.1 hq with rfl | hq
        · exact absurd hd hp
        · obtain ⟨l₁, q', l₂, rfl, hq', hl⟩ := ih ⟨q, hq, hd⟩
          exact ⟨p :: l₁, q', l₂, rfl, hq', List.forall_mem_cons.2 ⟨hp, hl⟩⟩

theorem allows_of_no_deny (hm : self.management = false)
    (hd : ∀ p ∈ ps, ¬ self.Denies resource p) :
    self.allows resource capability ps = true ↔ ∃ p ∈ ps, self.Grants resource capability p := by
  rw [allows_iff hm]
  constructor
  · rintro ⟨l₁, p, l₂, rfl, hg, _⟩
    exact ⟨p, by simp, hg⟩
  · rintro ⟨p, hp, hg⟩
    obtain ⟨l₁, l₂, rfl⟩ := List.append_of_mem hp
    exact ⟨l₁, p, l₂, rfl, hg, hd p hp, fun r hr => hd r (by simp [hr])⟩

theorem grantBeforeDeny_allows (hm : self.management = false)
    (h : self.GrantBeforeDeny resource capability ps) :
    self.allows resource capability ps = true := by
  obtain ⟨l₁, q, l₂, rfl, _, hl, p, hp, hg⟩ := h
  obtain ⟨a, b, rfl⟩ := List.append_of_mem hp
  exact (allows_iff hm).2
    ⟨a, p, b ++ q :: l₂, by simp, hg, hl p hp, fun r hr => hl r (by simp [hr])⟩

theorem grantBeforeDeny_of_allows (hm : self.management = false)
    (h : self.allows resource capability ps = true) (hd : ∃ q ∈ ps, self.Denies resource q) :
    self.GrantBeforeDeny resource capability ps := by
  obtain ⟨l₁, q, l₂, rfl, hq, hl⟩ := exists_first_deny hd
  obtain ⟨a, p, b, he, hg, hpd, ha⟩ := (allows_iff hm).1 h
  refine ⟨l₁, q, l₂, rfl, hq, hl, p, ?_, hg⟩
  rcases List.append_eq_append_iff.1 he with ⟨c, rfl, hc⟩ | ⟨c, rfl, hc⟩
  · cases c with
    | nil =>
        obtain ⟨rfl, rfl⟩ := List.cons.inj hc
        exact absurd hq hpd
    | cons x c =>
        obtain ⟨rfl, rfl⟩ := List.cons.inj hc
        exact absurd hq (ha _ (by simp))
  · cases c with
    | nil =>
        obtain ⟨rfl, rfl⟩ := List.cons.inj hc
        exact absurd hq hpd
    | cons x c =>
        obtain ⟨rfl, rfl⟩ := List.cons.inj hc
        simp

/-- On one list the code decides by "an explicit deny always wins" exactly when no granting policy
stands before the first denying one. -/
theorem allows_iff_denyWins :
    (self.allows resource capability ps = true ↔ self.DenyWins resource capability ps) ↔
      self.management = true ∨ ¬ self.GrantBeforeDeny resource capability ps := by
  cases hm : self.management with
  | true => simp [allows, DenyWins, hm]
  | false =>
      simp only [DenyWins, hm, Bool.false_eq_true, false_or]
      constructor
      · intro h hg
        obtain ⟨l₁, q, l₂, rfl, hq, _⟩ := id hg
        exact (h.1 (grantBeforeDeny_allows hm hg)).1 q (by simp) hq
      · intro hn
        by_cases hd : ∃ q ∈ ps, self.Denies resource q
        · constructor
          · exact fun h => absurd (grantBeforeDeny_of_allows hm h hd) hn
          · rintro ⟨h, _⟩
            obtain ⟨q, hq, hqd⟩ := hd
            exact absurd hqd (h q hq)
        · push Not at hd
          rw [allows_of_no_deny hm hd]
          exact (and_iff_right hd).symm

theorem allows_perm_iff :
    (∀ qs, qs.Perm ps → self.allows resource capability qs = self.allows resource capability ps) ↔
      self.management = true ∨ ¬ self.Conflict resource capability ps := by
  cases hm : self.management with
  | true => simp [allows, hm]
  | false =>
      simp only [Bool.false_eq_true, false_or]
      constructor
      · rintro h ⟨p, hp, q, hq, hg, hpd, hqd⟩
        obtain ⟨a, b, hab⟩ := List.append_of_mem hp
        obtain ⟨c, d, hcd⟩ := List.append_of_mem hq
        have htrue : self.allows resource capability (p :: (a ++ b)) = true :=
          (allows_iff hm).2 ⟨[], p, a ++ b, rfl, hg, hpd, by simp⟩
        have hfalse : ¬ self.allows resource capability (q :: (c ++ d)) = true := by
          simp [allows, hm, allowsLoop, hqd.1, hqd.2]
        rw [h (p :: (a ++ b)) (hab ▸ List.perm_middle.symm)] at htrue
        rw [h (q :: (c ++ d)) (hcd ▸ List.perm_middle.symm)] at hfalse
        exact hfalse htrue
      · intro hc qs hqs
        by_cases hd : ∃ q ∈ ps, self.Denies resource q
        · obtain ⟨q, hq, hqd⟩ := hd
          have hno (rs : List Policy) (hrs : rs.Perm ps) :
              ¬ self.allows resource capability rs = true := by
            rw [allows_iff hm]
            rintro ⟨l₁, p, l₂, rfl, hg, hpd, _⟩
            exact hc ⟨p, hrs.mem_iff.1 (by simp), q, hq, hg, hpd, hqd⟩
          rw [Bool.eq_false_iff.2 (hno qs hqs), Bool.eq_false_iff.2 (hno ps (List.Perm.refl _))]
        · push Not at hd
          have hiff : self.allows resource capability qs = true ↔
              self.allows resource capability ps = true := by
            rw [allows_of_no_deny hm hd, allows_of_no_deny hm fun p hp => hd p (hqs.mem_iff.1 hp)]
            simp only [hqs.mem_iff]
          exact Bool.eq_iff_iff.2 hiff

/-- When the code's decision is the documented one: on one list, and in every order of it. -/
theorem allows_decides (self : Token) (resource : String) (capability : Capability)
    (policies : List Policy) :
    ((self.allows resource capability policies = true ↔
        self.DenyWins resource capability policies) ↔
      self.management = true ∨ ¬ self.GrantBeforeDeny resource capability policies) ∧
    ((∀ qs, qs.Perm policies →
        self.allows resource capability qs = self.allows resource capability policies) ↔
      self.management = true ∨ ¬ self.Conflict resource capability policies) :=
  ⟨allows_iff_denyWins, allows_perm_iff⟩

theorem allows_despite_deny :
    ¬ ∀ (self : Token) (resource : String) (capability : Capability) (policies : List Policy),
      capability ≠ .deny → (self.allows resource capability policies = true ↔
        self.DenyWins resource capability policies) := by
  intro h
  let token : Token := ⟨"acc-1", "sec-1", ["dev", "freeze"], false⟩
  let dev : Policy := ⟨"dev", AList.insert "namespace:default" .write ∅⟩
  let freeze : Policy := ⟨"freeze", AList.insert "namespace:default" .deny ∅⟩
  have hallows : token.allows "namespace:default" .write [dev, freeze] = true := by decide
  have hdenies : token.Denies "namespace:default" freeze := by decide
  rcases (h token _ .write [dev, freeze] (by decide)).1 hallows with hm | ⟨hd, _⟩
  · exact absurd hm (by decide)
  · exact hd freeze (by simp) hdenies

end Token
end NomadRs
