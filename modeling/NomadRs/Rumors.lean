import NomadRs.HashMap

/-!
# Rumors with versions

A participant keeps a view: an entry for each key it has heard of. It learns a rumor about another
key than its own when it knows nothing about the key or the rumor has a greater version. So
learning adds nothing but rumors (`eq_or_mem_of_learnAll`), leaves the own entry alone, and only
ever replaces an entry by one of a greater version (`learnAll_later`).

What is known in the end of another key is the newest that was heard of it (`lookup_eq_some_iff`).
If no two different entries for a key have the same version, this depends on the set of the rumors
only, not on their order or on repetitions (`learnAll_relayout`).

Views are also what is left of pasts: `Knows` relates a view to all the entries that have come to a
participant, directly or by way of others. To learn the entries of a view is to take over its past
(`Knows.learnAll`).
-/

namespace Rumors

variable {κ ε : Type*} [DecidableEq κ]

/-- A rumor is learned if it is about another key and newer than what is known of it. -/
def learn (version : ε → ℕ) (self : κ) (view : HashMap κ ε) (rumor : κ × ε) : HashMap κ ε :=
  if rumor.1 = self then view
  else if (view.lookup rumor.1).all fun e => version e < version rumor.2 then
    view.insert rumor.1 rumor.2
  else view

def learnAll (version : ε → ℕ) (self : κ) (view : HashMap κ ε) (rumors : List (κ × ε)) :
    HashMap κ ε := rumors.foldl (learn version self) view

/-- Every entry is still there, or one of a greater version is in its place. -/
def Later (version : ε → ℕ) (view view' : HashMap κ ε) : Prop :=
  ∀ k e, view.lookup k = some e →
    ∃ e', view'.lookup k = some e' ∧ (e' = e ∨ version e < version e')

variable {version : ε → ℕ} {self k : κ} {view view' view'' : HashMap κ ε} {rumor : κ × ε}
  {rumors : List (κ × ε)} {e : ε}

theorem Later.refl (view : HashMap κ ε) : Later version view view :=
  fun _ e h => ⟨e, h, .inl rfl⟩

theorem Later.trans (h : Later version view view') (h' : Later version view' view'') :
    Later version view view'' := by
  intro k e he
  obtain ⟨e', he', hle⟩ := h k e he
  obtain ⟨e'', he'', hle'⟩ := h' k e' he'
  refine ⟨e'', he'', ?_⟩
  rcases hle with rfl | hlt
  · exact hle'
  · rcases hle' with rfl | hlt'
    · exact .inr hlt
    · exact .inr (hlt.trans hlt')

/-! ## One rumor -/

theorem learn_cases (version : ε → ℕ) (self : κ) (view : HashMap κ ε) (rumor : κ × ε) :
    (rumor.1 ≠ self ∧ (∀ e, view.lookup rumor.1 = some e → version e < version rumor.2) ∧
      learn version self view rumor = view.insert rumor.1 rumor.2) ∨
    ((rumor.1 = self ∨ ∃ e, view.lookup rumor.1 = some e ∧ version rumor.2 ≤ version e) ∧
      learn version self view rumor = view) := by
  unfold learn
  split
  next hself => exact .inr ⟨.inl hself, rfl⟩
  next hself =>
    cases hv : view.lookup rumor.1 with
    | none => exact .inl ⟨hself, by simp, by simp⟩
    | some e =>
        by_cases hlt : version e < version rumor.2
        · exact .inl ⟨hself, by simpa using hlt, by simp [hlt]⟩
        · exact .inr ⟨.inr ⟨e, rfl, not_lt.1 hlt⟩, by simp [hlt]⟩

theorem learn_self : (learn version self view rumor).lookup self = view.lookup self := by
  rcases learn_cases version self view rumor with ⟨hne, _, h⟩ | ⟨_, h⟩
  · rw [h, AList.lookup_insert_ne hne.symm]
  · rw [h]

theorem learn_other (hk : rumor.1 ≠ k) :
    (learn version self view rumor).lookup k = view.lookup k := by
  rcases learn_cases version self view rumor with ⟨_, _, h⟩ | ⟨_, h⟩
  · rw [h, AList.lookup_insert_ne hk.symm]
  · rw [h]

theorem eq_or_mem_of_learn (h : (learn version self view rumor).lookup k = some e) :
    view.lookup k = some e ∨ (k, e) = rumor := by
  rcases learn_cases version self view rumor with ⟨_, _, hl⟩ | ⟨_, hl⟩
  · rw [hl] at h
    rcases HashMap.lookup_insert_eq_some.1 h with ⟨rfl, rfl⟩ | ⟨_, h⟩
    · exact .inr rfl
    · exact .inl h
  · exact .inl (hl ▸ h)

theorem learn_later : Later version view (learn version self view rumor) := by
  rcases learn_cases version self view rumor with ⟨_, hnew, h⟩ | ⟨_, h⟩
  · intro k e he
    by_cases hk : k = rumor.1
    · subst hk
      exact ⟨rumor.2, by rw [h, AList.lookup_insert], .inr (hnew e he)⟩
    · exact ⟨e, by rw [h, AList.lookup_insert_ne hk, he], .inl rfl⟩
  · rw [h]
    exact .refl _

/-! ## Many rumors -/

theorem learnAll_self : (learnAll version self view rumors).lookup self = view.lookup self := by
  induction rumors generalizing view with
  | nil => rfl
  | cons rumor rumors ih => exact ih.trans learn_self

theorem eq_or_mem_of_learnAll (h : (learnAll version self view rumors).lookup k = some e) :
    view.lookup k = some e ∨ (k, e) ∈ rumors := by
  induction rumors generalizing view with
  | nil => exact .inl h
  | cons rumor rumors ih =>
      rcases ih h with h | h
      · refine (eq_or_mem_of_learn h).imp_right fun heq => ?_
        rw [heq]
        exact List.mem_cons_self
      · exact .inr (List.mem_cons_of_mem _ h)

theorem learnAll_later : Later version view (learnAll version self view rumors) := by
  induction rumors generalizing view with
  | nil => exact .refl _
  | cons rumor rumors ih => exact learn_later.trans ih

theorem learnAll_other (h : ∀ r ∈ rumors, r.1 ≠ k) :
    (learnAll version self view rumors).lookup k = view.lookup k := by
  induction rumors generalizing view with
  | nil => rfl
  | cons rumor rumors ih =>
      obtain ⟨hr, hrest⟩ := List.forall_mem_cons.1 h
      exact (ih hrest).trans (learn_other hr)

theorem lookup_learnAll (hkeys : (rumors.map Prod.fst).Nodup) (hmem : (k, e) ∈ rumors)
    (hne : k ≠ self) : (learnAll version self view rumors).lookup k =
      if (view.lookup k).all fun old => version old < version e then some e
      else view.lookup k := by
  induction rumors generalizing view with
  | nil => cases hmem
  | cons rumor rumors ih =>
      rw [List.map_cons, List.nodup_cons] at hkeys
      rcases List.mem_cons.1 hmem with rfl | hmem
      · have hrest : ∀ r ∈ rumors, r.1 ≠ k := fun r hr heq =>
          hkeys.1 (List.mem_map.2 ⟨r, hr, heq⟩)
        refine (learnAll_other hrest).trans ?_
        simp only [learn, hne, if_false]
        split
        · exact AList.lookup_insert _
        · rfl
      · have hother : rumor.1 ≠ k := fun heq => hkeys.1 (heq ▸ List.mem_map.2 ⟨_, hmem, rfl⟩)
        have hview : (learn version self view rumor).lookup k = view.lookup k :=
          learn_other hother
        rw [← hview]
        exact ih hkeys.2 hmem

/-! ## What is known in the end -/

def Heard (view : HashMap κ ε) (rumors : List (κ × ε)) (k : κ) (e : ε) : Prop :=
  view.lookup k = some e ∨ (k, e) ∈ rumors

def Newest (version : ε → ℕ) (view : HashMap κ ε) (rumors : List (κ × ε)) (k : κ) (e : ε) : Prop :=
  Heard view rumors k e ∧ ∀ e', Heard view rumors k e' → version e' ≤ version e

def Unambiguous (version : ε → ℕ) (view : HashMap κ ε) (rumors : List (κ × ε)) : Prop :=
  ∀ k e e', Heard view rumors k e → Heard view rumors k e' → version e = version e' → e = e'

variable (version view) in
theorem exists_of_learn (hne : k ≠ self) :
    ∃ e', (learn version self view (k, e)).lookup k = some e' ∧ version e ≤ version e' := by
  rcases learn_cases version self view (k, e) with ⟨_, _, h⟩ | ⟨hself | ⟨e', he', hle⟩, h⟩
  · exact ⟨e, by rw [h, AList.lookup_insert], le_rfl⟩
  · exact absurd hself hne
  · exact ⟨e', by rw [h, he'], hle⟩

theorem Later.version_le (h : Later version view view') (he : view.lookup k = some e) :
    ∃ e', view'.lookup k = some e' ∧ version e ≤ version e' := by
  obtain ⟨e', he', rfl | hlt⟩ := h k e he
  · exact ⟨e', he', le_rfl⟩
  · exact ⟨e', he', hlt.le⟩

variable (version) in
theorem exists_of_heard (hne : k ≠ self) (h : Heard view rumors k e) :
    ∃ e', (learnAll version self view rumors).lookup k = some e' ∧ version e ≤ version e' := by
  rcases h with h | hmem
  · exact learnAll_later.version_le h
  · induction rumors generalizing view with
    | nil => cases hmem
    | cons rumor rumors ih =>
        rcases List.mem_cons.1 hmem with rfl | hmem
        · obtain ⟨e', he', hle⟩ := exists_of_learn version view hne
          have hlater : Later version (learn version self view (k, e))
              (learnAll version self (learn version self view (k, e)) rumors) := learnAll_later
          obtain ⟨e'', he'', hle'⟩ := hlater.version_le he'
          exact ⟨e'', he'', hle.trans hle'⟩
        · exact ih hmem

theorem newest_of_lookup (hne : k ≠ self)
    (h : (learnAll version self view rumors).lookup k = some e) :
    Newest version view rumors k e := by
  refine ⟨eq_or_mem_of_learnAll h, fun e' he' => ?_⟩
  obtain ⟨e'', he'', hle⟩ := exists_of_heard version hne he'
  rw [h] at he''
  cases he''
  exact hle

theorem lookup_eq_some_iff (hu : Unambiguous version view rumors) (hne : k ≠ self) :
    (learnAll version self view rumors).lookup k = some e ↔ Newest version view rumors k e := by
  refine ⟨newest_of_lookup hne, fun ⟨he, hmax⟩ => ?_⟩
  obtain ⟨e', he', hle⟩ := exists_of_heard version hne he
  have hheard := (newest_of_lookup hne he').1
  rw [he', hu k e' e hheard he ((hmax e' hheard).antisymm hle)]

/-- The same rumors in any order, repeated or not, lead to the same view. -/
theorem learnAll_relayout {rumors' : List (κ × ε)} (hu : Unambiguous version view rumors)
    (hsame : ∀ r, r ∈ rumors' ↔ r ∈ rumors) :
    (learnAll version self view rumors).Relayout (learnAll version self view rumors') := by
  have hheard (k : κ) (e : ε) : Heard view rumors' k e ↔ Heard view rumors k e :=
    or_congr_right (hsame (k, e))
  refine HashMap.relayout_of_lookup fun k => Option.ext fun e => ?_
  by_cases hk : k = self
  · rw [hk, learnAll_self, learnAll_self]
  · have hu' : Unambiguous version view rumors' := by
      simpa only [Unambiguous, hheard] using hu
    rw [lookup_eq_some_iff hu hk, lookup_eq_some_iff hu' hk]
    simp only [Newest, hheard]

/-! ## Views of a past -/

/-- Every entry of the view is from the past, and nothing in the past is newer. -/
structure Knows (version : ε → ℕ) (view : HashMap κ ε) (past : Set (κ × ε)) : Prop where
  mem : ∀ k e, view.lookup k = some e → (k, e) ∈ past
  newest : ∀ k e, (k, e) ∈ past → ∃ e', view.lookup k = some e' ∧ version e ≤ version e'

/-- No two entries of a past for one key have the same version. -/
def OnePerVersion (version : ε → ℕ) (past : Set (κ × ε)) : Prop :=
  ∀ k e e', (k, e) ∈ past → (k, e') ∈ past → version e = version e' → e = e'

section Pasts
variable {past past' : Set (κ × ε)}

theorem Knows.entries (version : ε → ℕ) (view : HashMap κ ε) :
    Knows version view {r | view.lookup r.1 = some r.2} :=
  ⟨fun _ _ h => h, fun _ e h => ⟨e, h, le_rfl⟩⟩

theorem Knows.congr (h : Knows version view past) (hview : ∀ k, view'.lookup k = view.lookup k) :
    Knows version view' past :=
  ⟨fun k e he => h.mem k e ((hview k).symm.trans he), fun k e he => by
    rw [hview]
    exact h.newest k e he⟩

/-- What is known of a key is the newest of the past. -/
theorem Knows.lookup_eq_some_iff (h : Knows version view past) (hone : OnePerVersion version past) :
    view.lookup k = some e ↔ (k, e) ∈ past ∧ ∀ e', (k, e') ∈ past → version e' ≤ version e := by
  constructor
  · intro he
    refine ⟨h.mem k e he, fun e' he' => ?_⟩
    obtain ⟨e'', he'', hle⟩ := h.newest k e' he'
    rw [he] at he''
    cases he''
    exact hle
  · rintro ⟨he, hmax⟩
    obtain ⟨e', he', hle⟩ := h.newest k e he
    have hmem := h.mem k e' he'
    rw [he', hone k e' e hmem he ((hmax e' hmem).antisymm hle)]

/-- Views of one past are the same. -/
theorem Knows.relayout (h : Knows version view past) (h' : Knows version view' past)
    (hone : OnePerVersion version past) : view.Relayout view' :=
  HashMap.relayout_of_lookup fun k => Option.ext fun e => by
    rw [h.lookup_eq_some_iff hone, h'.lookup_eq_some_iff hone]

theorem Knows.insert (h : Knows version view past)
    (hnew : ∀ e', view.lookup k = some e' → version e' ≤ version e) :
    Knows version (AList.insert k e view) (past ∪ {(k, e)}) := by
  refine ⟨fun k' e' he' => ?_, fun k' e' he' => ?_⟩
  · rcases HashMap.lookup_insert_eq_some.1 he' with ⟨rfl, rfl⟩ | ⟨_, he'⟩
    · exact .inr rfl
    · exact .inl (h.mem k' e' he')
  · by_cases hk : k' = k
    · subst hk
      refine ⟨e, AList.lookup_insert _, ?_⟩
      rcases he' with he' | he'
      · obtain ⟨e'', he'', hle⟩ := h.newest k' e' he'
        exact hle.trans (hnew e'' he'')
      · rw [(Prod.mk.inj he').2]
    · rw [AList.lookup_insert_ne hk]
      refine h.newest k' e' (he'.resolve_right fun heq => hk (Prod.mk.inj heq).1)

/-- Learning the entries of a view takes over its past, if it has nothing newer about oneself. -/
theorem Knows.learnAll (h : Knows version view past) (h' : Knows version view' past')
    (hrumors : ∀ k e, (k, e) ∈ rumors ↔ view'.lookup k = some e)
    (hself : ∀ e, (self, e) ∈ past' → ∃ e', view.lookup self = some e' ∧ version e ≤ version e') :
    Knows version (learnAll version self view rumors) (past ∪ past') := by
  refine ⟨fun k e he => ?_, fun k e he => ?_⟩
  · rcases eq_or_mem_of_learnAll he with he | hmem
    · exact .inl (h.mem k e he)
    · exact .inr (h'.mem k e ((hrumors k e).1 hmem))
  · by_cases hk : k = self
    · subst hk
      rw [learnAll_self]
      exact he.elim (h.newest k e) (hself e)
    · obtain ⟨e', hheard, hle⟩ : ∃ e', Heard view rumors k e' ∧ version e ≤ version e' := by
        rcases he with he | he
        · obtain ⟨e', he', hle⟩ := h.newest k e he
          exact ⟨e', .inl he', hle⟩
        · obtain ⟨e', he', hle⟩ := h'.newest k e he
          exact ⟨e', .inr ((hrumors k e').2 he'), hle⟩
      obtain ⟨e'', he'', hle'⟩ := exists_of_heard version hk hheard
      exact ⟨e'', he'', hle.trans hle'⟩

end Pasts

end Rumors
