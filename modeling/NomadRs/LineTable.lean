import Mathlib.Logic.Encodable.Basic
import NomadRs.LineFile

/-!
# Codecs with prescribed texts

`TextTable` prescribes the texts of some values of a countable type. Its codec writes the others
as numbers between braces, in unary, and decodes what is an encoding. A table of texts that look
like objects and of which none begins inside another makes a self-delimiting codec, so laws
about all codecs can be put to the test on the texts a real encoder writes.
-/

namespace LineFile

def openBrace : UInt8 := 123
def closeBrace : UInt8 := 125
def quote : UInt8 := 34
def digitOne : UInt8 := 49

def braced (n : ℕ) : Bytes := openBrace :: (List.replicate (n + 1) digitOne ++ [closeBrace])

/-- The looks of an object: an opening brace before a quote, and a closing brace at the end. -/
def ObjectLike (t : Bytes) : Prop :=
  t.take 2 = [openBrace, quote] ∧ t.getLast? = some closeBrace ∧
    lineFeed ∉ t ∧ carriageReturn ∉ t

/-- No prescribed text begins another one or inside one, and neither does a number. -/
def Separable (texts : List Bytes) : Prop :=
  ∀ t ∈ texts, ObjectLike t ∧ ¬ [openBrace, digitOne] <:+: t ∧
    ∀ t' ∈ texts, (t <+: t' → t = t') ∧ ∀ q ∈ t.tails, q ≠ t → q ≠ [] → ¬ q <+: t'

instance (t : Bytes) : Decidable (ObjectLike t) := inferInstanceAs (Decidable (_ ∧ _ ∧ _ ∧ _))

instance (texts : List Bytes) : Decidable (Separable texts) :=
  inferInstanceAs (Decidable (∀ t ∈ texts, _))

structure TextTable (α : Type*) where
  text : α → Option Bytes
  texts : List Bytes
  mem_texts : ∀ a t, text a = some t → t ∈ texts
  text_inj : ∀ a b t, text a = some t → text b = some t → a = b
  separable : Separable texts

/-! ## Numbers between braces -/

theorem mem_braced {n : ℕ} {b : UInt8} (h : b ∈ braced n) :
    b = openBrace ∨ b = digitOne ∨ b = closeBrace := by
  simpa [braced] using h

theorem openBrace_notMem_tail {n : ℕ} {b : UInt8} {l : Bytes} (h : braced n = b :: l) :
    openBrace ∉ l := by
  obtain ⟨_, rfl⟩ := List.cons.inj h
  rw [List.mem_append, List.mem_replicate, List.mem_singleton]
  rintro (⟨_, h⟩ | h) <;> exact absurd h (by decide)

theorem closeBrace_notMem_of_prefix {n : ℕ} {p : Bytes} (hp : p <+: braced n)
    (hne : p ≠ braced n) : closeBrace ∉ p := by
  have hcons : braced n = (openBrace :: List.replicate (n + 1) digitOne) ++ [closeBrace] := rfl
  rw [hcons, List.prefix_concat_iff] at hp
  rcases hp with rfl | hp
  · exact absurd hcons.symm hne
  · intro hmem
    have hin := hp.mem hmem
    rw [List.mem_cons, List.mem_replicate] at hin
    rcases hin with h | ⟨_, h⟩ <;> exact absurd h (by decide)

theorem take_two_braced (n : ℕ) : (braced n).take 2 = [openBrace, digitOne] := by
  rw [braced, List.replicate_succ]
  rfl

theorem getLast?_braced (n : ℕ) : (braced n).getLast? = some closeBrace := by
  rw [braced, ← List.cons_append, List.getLast?_concat]

theorem braced_injective : Function.Injective braced := fun m n h => by
  have := congrArg List.length h
  simpa [braced] using this

namespace TextTable

section Codec
variable {α : Type*} [Countable α] (table : TextTable α)

noncomputable def encode (a : α) : Bytes :=
  (table.text a).getD (braced ((Encodable.ofCountable α).encode a))

theorem encode_of_text {a : α} {t : Bytes} (h : table.text a = some t) : table.encode a = t := by
  rw [encode, h, Option.getD_some]

theorem encode_cases (a : α) :
    (∃ t, table.text a = some t ∧ table.encode a = t ∧ t ∈ table.texts) ∨
      table.text a = none ∧ table.encode a = braced ((Encodable.ofCountable α).encode a) := by
  cases h : table.text a with
  | some t => exact .inl ⟨t, rfl, encode_of_text table h, table.mem_texts a t h⟩
  | none => exact .inr ⟨rfl, by rw [encode, h, Option.getD_none]⟩

variable {table} in
omit [Countable α] in
theorem text_ne_braced {t : Bytes} (ht : t ∈ table.texts) (n : ℕ) (rest : Bytes) :
    t ≠ braced n ++ rest := by
  intro h
  have htwo := (table.separable t ht).1.1
  rw [h, List.take_append_of_le_length (by simp [braced]), take_two_braced] at htwo
  revert htwo
  decide

variable {table} in
theorem encode_injective : Function.Injective table.encode := by
  intro a b h
  rcases encode_cases table a with ⟨t, ha, hta, ht⟩ | ⟨_, hta⟩ <;>
    rcases encode_cases table b with ⟨t', hb, htb, ht'⟩ | ⟨_, htb⟩
  · rw [hta, htb] at h
    subst h
    exact table.text_inj a b t ha hb
  · rw [hta, htb] at h
    exact absurd (h.trans (List.append_nil _).symm) (text_ne_braced ht _ [])
  · rw [hta, htb] at h
    exact absurd (h.symm.trans (List.append_nil _).symm) (text_ne_braced ht' _ [])
  · rw [hta, htb] at h
    exact (Encodable.ofCountable α).encode_injective (braced_injective h)

theorem getLast?_encode (a : α) : (table.encode a).getLast? = some closeBrace := by
  rcases encode_cases table a with ⟨t, _, hta, ht⟩ | ⟨_, hta⟩
  · rw [hta]
    exact (table.separable t ht).1.2.1
  · rw [hta, getLast?_braced]

theorem head?_encode (a : α) : (table.encode a).head? = some openBrace := by
  rcases encode_cases table a with ⟨t, _, hta, ht⟩ | ⟨_, hta⟩
  · have htwo := (table.separable t ht).1.1
    rw [hta]
    cases t with
    | nil => simp at htwo
    | cons b t =>
        rw [List.take_succ_cons] at htwo
        rw [List.head?_cons, (List.cons.inj htwo).1]
  · rw [hta]
    rfl

variable {table}

open Classical in
noncomputable def codec {ε : Type*} (table : TextTable α) (e : ε) : LineCodec ε α where
  encode := table.encode
  decode bytes := if h : ∃ a, table.encode a = bytes then .ok h.choose else .error e
  decode_encode a := by
    have h : ∃ b, table.encode b = table.encode a := ⟨a, rfl⟩
    rw [dif_pos h, encode_injective h.choose_spec]
  encode_ne_nil a h := by
    have := head?_encode table a
    rw [h] at this
    cases this
  no_lineFeed a h := by
    rcases encode_cases table a with ⟨t, _, hta, ht⟩ | ⟨_, hta⟩ <;> rw [hta] at h
    · exact (table.separable t ht).1.2.2.1 h
    · rcases mem_braced h with h | h | h <;> exact absurd h (by decide)
  no_carriageReturn a h := by
    rcases encode_cases table a with ⟨t, _, hta, ht⟩ | ⟨_, hta⟩ <;> rw [hta] at h
    · exact (table.separable t ht).1.2.2.2 h
    · rcases mem_braced h with h | h | h <;> exact absurd h (by decide)

theorem codec_decode_error {ε : Type*} {e : ε} {bytes : Bytes}
    (h : ∀ a, table.encode a ≠ bytes) : (table.codec e).decode bytes = .error e :=
  dif_neg fun ⟨a, ha⟩ => h a ha

/-- No encoding is a proper beginning of another. -/
theorem encode_prefixFree {a b : α} (h : table.encode a <+: table.encode b) :
    table.encode a = table.encode b := by
  by_contra hne
  rcases encode_cases table b with ⟨t, _, htb, ht⟩ | ⟨_, htb⟩ <;> rw [htb] at h hne
  · rcases encode_cases table a with ⟨t', _, hta, ht'⟩ | ⟨_, hta⟩ <;> rw [hta] at h hne
    · exact hne (((table.separable t' ht').2.2 t ht).1 h)
    · obtain ⟨rest, hrest⟩ := h
      exact text_ne_braced ht _ rest hrest.symm
  · exact closeBrace_notMem_of_prefix h hne (List.mem_of_getLast? (getLast?_encode table a))

/-- No fragment of an encoding ends another one. -/
theorem not_suffix_of_prefix {b c : α} {p q : Bytes} (hc : table.encode c = p ++ q)
    (hp : p ≠ []) (hqne : q ≠ []) (hq : q <+: table.encode b) : False := by
  have hhead : q.head? = some openBrace := by
    obtain ⟨rest, hrest⟩ := hq
    rw [← head?_encode table b, ← hrest, List.head?_append_of_ne_nil _ hqne]
  have hlast : q.getLast? = some closeBrace := by
    rw [← getLast?_encode table c, hc, List.getLast?_append_of_ne_nil _ hqne]
  rcases encode_cases table c with ⟨t, _, htc, ht⟩ | ⟨_, htc⟩ <;> rw [htc] at hc
  · obtain ⟨-, hnum, hsep⟩ := table.separable t ht
    rcases encode_cases table b with ⟨t', _, htb, ht'⟩ | ⟨_, htb⟩ <;> rw [htb] at hq
    · refine (hsep t' ht').2 q ?_ ?_ hqne hq
      · rw [List.mem_tails, hc]
        exact List.suffix_append p q
      · intro h
        rw [hc] at h
        exact hp (by simpa using h.symm)
    · have htwo : [openBrace, digitOne] <+: q := by
        rw [← take_two_braced ((Encodable.ofCountable α).encode b)]
        refine List.prefix_of_prefix_length_le (List.take_prefix _ _) hq ?_
        match q, hqne, hhead, hlast with
        | [x], _, hx, hy =>
            simp only [List.head?_cons, List.getLast?_singleton, Option.some.injEq] at hx hy
            rw [hx] at hy
            exact absurd hy (by decide)
        | _ :: _ :: _, _, _, _ => simp
      refine hnum (htwo.isInfix.trans ?_)
      rw [hc]
      exact (List.suffix_append p q).isInfix
  · cases p with
    | nil => exact hp rfl
    | cons x p =>
        refine openBrace_notMem_tail hc (List.mem_append_right _ ?_)
        exact List.mem_of_mem_head? hhead

theorem selfDelimiting (table : TextTable α) {ε : Type*} (e : ε) :
    (table.codec e).SelfDelimiting where
  fragments a b p q hp hpne hq hpq := by
    refine ⟨e, codec_decode_error fun c hc => ?_⟩
    rcases eq_or_ne q [] with rfl | hqne
    · rw [List.append_nil] at hc
      have hpa : table.encode c <+: table.encode a := hc ▸ hp
      exact hpq.resolve_right (by simp) (hc.symm.trans (encode_prefixFree hpa))
    · exact not_suffix_of_prefix hc hpne hqne hq
  trailing a b q r hq hqne := by
    refine ⟨e, codec_decode_error fun c hc => ?_⟩
    have hac : table.encode a <+: table.encode c := ⟨q ++ r, hc.symm⟩
    have hlen := congrArg List.length ((encode_prefixFree hac).trans hc)
    rw [List.length_append, List.length_append] at hlen
    change _ = (table.encode a).length + _ at hlen
    exact hqne (List.length_eq_zero_iff.1 (by omega))

end Codec
end TextTable
end LineFile
