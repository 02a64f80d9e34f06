import Mathlib.Data.List.Basic
import Mathlib.Data.List.Infix
import Mathlib.Tactic

/-!
# Files of one record a line

A record file holds the encodings of its records, each followed by a line feed. `decodeLines`
reads one back as a buffered line reader does: a carriage return before the line feed is
dropped, empty lines are skipped, and a last line without line feed counts as a line.

The laws of an encoding are carried by its codec. `Codec` decodes what it encodes,
`LineCodec` encodes to a nonempty text without line breaks, and for a `SelfDelimiting` codec no
fragment of an encoding can be taken for a record, neither alone nor with the fragment of
another encoding behind it. The results say what is read back from a file that was cut at an
arbitrary byte, and from one that was appended to after such a cut.
-/

namespace LineFile

abbrev Bytes := List UInt8

def lineFeed : UInt8 := 10
def carriageReturn : UInt8 := 13

def asciiBytes (s : String) : Bytes := s.toList.map fun c => UInt8.ofNat c.toNat

structure Codec (ε α : Type*) where
  encode : α → Bytes
  decode : Bytes → Except ε α
  decode_encode : ∀ a, decode (encode a) = .ok a

/-- An encoding as one nonempty line. -/
structure LineCodec (ε α : Type*) extends Codec ε α where
  encode_ne_nil : ∀ a, encode a ≠ []
  no_lineFeed : ∀ a, lineFeed ∉ encode a
  no_carriageReturn : ∀ a, carriageReturn ∉ encode a

attribute [simp] Codec.decode_encode LineCodec.encode_ne_nil

/-- What can be told from fragments of encodings: a fragment is no record, also with a fragment
of another encoding behind it, and neither is a whole encoding with anything behind it that
begins like one. -/
structure LineCodec.SelfDelimiting {ε α : Type*} (c : LineCodec ε α) : Prop where
  fragments : ∀ a b p q, p <+: c.encode a → p ≠ [] → q <+: c.encode b → p ≠ c.encode a ∨ q ≠ [] →
    ∃ e, c.decode (p ++ q) = .error e
  trailing : ∀ a b q r, q <+: c.encode b → q ≠ [] →
    ∃ e, c.decode (c.encode a ++ (q ++ r)) = .error e

/-! ## Lines -/

def chomp (line : Bytes) : Bytes :=
  if line.getLast? = some carriageReturn then line.dropLast else line

/-- The lines of a text; `line` holds the bytes read since the last line feed. -/
def linesFrom (line : Bytes) : Bytes → List Bytes
  | [] => if line = [] then [] else [line]
  | b :: bytes =>
    if b = lineFeed then chomp line :: linesFrom [] bytes else linesFrom (line ++ [b]) bytes

def lines (bytes : Bytes) : List Bytes := linesFrom [] bytes

theorem linesFrom_append {l : Bytes} (hl : lineFeed ∉ l) (line bytes : Bytes) :
    linesFrom line (l ++ bytes) = linesFrom (line ++ l) bytes := by
  induction l generalizing line with
  | nil => simp
  | cons b l ih =>
      simp only [List.mem_cons, not_or] at hl
      rw [List.cons_append, linesFrom, if_neg (Ne.symm hl.1), ih hl.2, List.append_assoc]
      rfl

theorem lines_append_lineFeed {l : Bytes} (hl : lineFeed ∉ l) (bytes : Bytes) :
    lines (l ++ lineFeed :: bytes) = chomp l :: lines bytes := by
  rw [lines, linesFrom_append hl, List.nil_append, linesFrom, if_pos rfl]
  rfl

theorem lines_of_not_mem {l : Bytes} (hl : lineFeed ∉ l) (hne : l ≠ []) : lines l = [l] := by
  have h := linesFrom_append hl [] []
  rw [List.append_nil, List.nil_append, linesFrom, if_neg hne] at h
  exact h

theorem chomp_eq_self {l : Bytes} (hl : carriageReturn ∉ l) : chomp l = l := by
  rw [chomp, if_neg]
  intro h
  exact hl (List.mem_of_getLast? h)

/-! ## Records -/

section Records
variable {ε α : Type*} (c : LineCodec ε α)

/-- Decoding line after line, stopping at the first that does not decode. -/
def LineCodec.decodeEach : List Bytes → Except ε (List α)
  | [] => .ok []
  | line :: rest =>
    if line = [] then decodeEach rest
    else do
      let record ← c.decode line
      let records ← decodeEach rest
      return record :: records

def LineCodec.decodeLines (bytes : Bytes) : Except ε (List α) := c.decodeEach (lines bytes)

def LineCodec.encodeLine (a : α) : Bytes := c.encode a ++ [lineFeed]

def LineCodec.encodeLines (as : List α) : Bytes := as.flatMap c.encodeLine

variable {c}

@[simp] theorem encodeLines_nil : c.encodeLines [] = [] := rfl

theorem encodeLines_cons (a : α) (as : List α) :
    c.encodeLines (a :: as) = c.encode a ++ lineFeed :: c.encodeLines as := by
  simp [LineCodec.encodeLines, LineCodec.encodeLine]

theorem encodeLines_append (as bs : List α) :
    c.encodeLines (as ++ bs) = c.encodeLines as ++ c.encodeLines bs := by
  simp [LineCodec.encodeLines]

theorem encodeLines_concat (as : List α) (a : α) :
    c.encodeLines (as ++ [a]) = c.encodeLines as ++ c.encodeLine a := by
  simp [LineCodec.encodeLines]

@[simp] theorem length_encodeLine (a : α) : (c.encodeLine a).length = (c.encode a).length + 1 := by
  simp [LineCodec.encodeLine]

/-- What follows the records of a file is read on its own. -/
theorem decodeLines_encodeLines_append (as : List α) (bytes : Bytes) :
    c.decodeLines (c.encodeLines as ++ bytes) = (c.decodeLines bytes).map (as ++ ·) := by
  induction as with
  | nil =>
      rw [encodeLines_nil, List.nil_append]
      cases c.decodeLines bytes <;> rfl
  | cons a as ih =>
      rw [encodeLines_cons, List.append_assoc, List.cons_append, LineCodec.decodeLines,
        lines_append_lineFeed (c.no_lineFeed a), chomp_eq_self (c.no_carriageReturn a),
        LineCodec.decodeEach, if_neg (c.encode_ne_nil a), c.decode_encode]
      rw [LineCodec.decodeLines] at ih
      change (c.decodeEach (lines (c.encodeLines as ++ bytes)) >>= fun records =>
        pure (a :: records)) = _
      rw [ih]
      cases c.decodeLines bytes <;> rfl

@[simp] theorem decodeLines_nil : c.decodeLines [] = .ok [] := rfl

theorem decodeLines_encodeLines (as : List α) : c.decodeLines (c.encodeLines as) = .ok as := by
  have h := decodeLines_encodeLines_append (c := c) as []
  rw [List.append_nil, decodeLines_nil] at h
  rw [h, Except.map, List.append_nil]

theorem decodeLines_of_not_mem {l : Bytes} (hl : lineFeed ∉ l) (hne : l ≠ []) :
    c.decodeLines l = (c.decode l).map ([·]) := by
  rw [LineCodec.decodeLines, lines_of_not_mem hl hne, LineCodec.decodeEach, if_neg hne]
  cases c.decode l <;> rfl

/-- A last record that lacks only its line feed is read like the others. -/
theorem decodeLines_unterminated (as : List α) (a : α) :
    c.decodeLines (c.encodeLines as ++ c.encode a) = .ok (as ++ [a]) := by
  rw [decodeLines_encodeLines_append,
    decodeLines_of_not_mem (c.no_lineFeed a) (c.encode_ne_nil a), c.decode_encode]
  rfl

/-! ## Files cut short -/

theorem take_encodeLine {a : α} {k : ℕ} (hk : k ≤ (c.encode a).length) :
    (c.encodeLine a).take k = (c.encode a).take k := List.take_append_of_le_length hk

theorem take_flatMap {β : Type*} (f : β → Bytes) {parts : List β} {n : ℕ}
    (hn : n < (parts.flatMap f).length) : ∃ before part after k,
      parts = before ++ part :: after ∧ k < (f part).length ∧
      n = (before.flatMap f).length + k ∧
      (parts.flatMap f).take n = before.flatMap f ++ (f part).take k := by
  induction parts generalizing n with
  | nil => simp at hn
  | cons part parts ih =>
      rw [List.flatMap_cons] at hn ⊢
      rcases Nat.lt_or_ge n (f part).length with hlt | hge
      · refine ⟨[], part, parts, n, rfl, hlt, by simp, ?_⟩
        rw [List.take_append_of_le_length hlt.le]
        rfl
      · rw [List.length_append] at hn
        obtain ⟨before, b, after, k, rfl, hk, hnk, htake⟩ := ih (n := n - (f part).length)
          (by omega)
        refine ⟨part :: before, b, after, k, rfl, hk, ?_, ?_⟩
        · rw [List.flatMap_cons, List.length_append]
          omega
        · rw [List.take_append, htake, List.take_of_length_le hge, List.flatMap_cons,
            List.append_assoc]

/-- A cut falls into one record, before its line feed. -/
theorem take_encodeLines {as : List α} {n : ℕ} (hn : n < (c.encodeLines as).length) :
    ∃ before a after k, as = before ++ a :: after ∧ k ≤ (c.encode a).length ∧
      n = (c.encodeLines before).length + k ∧
      (c.encodeLines as).take n = c.encodeLines before ++ (c.encode a).take k := by
  obtain ⟨before, a, after, k, has, hk, hnk, htake⟩ := take_flatMap c.encodeLine hn
  rw [length_encodeLine] at hk
  refine ⟨before, a, after, k, has, by omega, hnk, ?_⟩
  rw [← take_encodeLine (by omega)]
  exact htake

theorem take_encodeLines_of_length {as : List α} {n : ℕ} (hn : (c.encodeLines as).length = n + 1) :
    ∃ before a, as = before ++ [a] ∧
      (c.encodeLines as).take n = c.encodeLines before ++ c.encode a := by
  obtain ⟨before, a, after, k, rfl, hk, rfl, htake⟩ := take_encodeLines
    (show n < (c.encodeLines as).length by omega)
  rw [encodeLines_append, encodeLines_cons, List.length_append, List.length_append,
    List.length_cons] at hn
  obtain rfl : after = [] := by
    cases after with
    | nil => rfl
    | cons b after =>
        rw [encodeLines_cons, List.length_append, List.length_cons] at hn
        omega
  have hkeq : k = (c.encode a).length := by
    rw [encodeLines_nil, List.length_nil] at hn
    omega
  rw [hkeq, List.take_length] at htake
  exact ⟨before, a, rfl, by rw [hkeq, htake]⟩

theorem decodeLines_take {as : List α} {n : ℕ} (hn : (c.encodeLines as).length ≤ n + 1) :
    c.decodeLines ((c.encodeLines as).take n) = .ok as := by
  rcases Nat.lt_or_ge n (c.encodeLines as).length with hlt | hge
  · obtain ⟨before, a, has, htake⟩ := take_encodeLines_of_length
      (show (c.encodeLines as).length = n + 1 by omega)
    rw [htake, decodeLines_unterminated, has]
  · rw [List.take_of_length_le hge, decodeLines_encodeLines]

theorem decodeLines_error {l : Bytes} (as : List α) (hl : lineFeed ∉ l) (hne : l ≠ [])
    (he : ∃ e, c.decode l = .error e) : ∃ e, c.decodeLines (c.encodeLines as ++ l) = .error e := by
  obtain ⟨e, he⟩ := he
  refine ⟨e, ?_⟩
  rw [decodeLines_encodeLines_append, decodeLines_of_not_mem hl hne, he]
  rfl

/-- A line that does not decode hides every record behind it. -/
theorem decodeLines_error_lineFeed {l : Bytes} (as : List α) (hl : lineFeed ∉ l)
    (hcr : carriageReturn ∉ l) (hne : l ≠ []) (he : ∃ e, c.decode l = .error e) (bytes : Bytes) :
    ∃ e, c.decodeLines (c.encodeLines as ++ (l ++ lineFeed :: bytes)) = .error e := by
  obtain ⟨e, he⟩ := he
  refine ⟨e, ?_⟩
  rw [decodeLines_encodeLines_append, LineCodec.decodeLines, lines_append_lineFeed hl,
    chomp_eq_self hcr, LineCodec.decodeEach, if_neg hne, he]
  rfl

section SelfDelimiting
variable (hc : c.SelfDelimiting) {a b : α} {p q : Bytes}
include hc

theorem LineCodec.SelfDelimiting.decodeLines_append (as : List α) (hp : p <+: c.encode a)
    (hne : p ≠ []) (hq : q <+: c.encode b) (hpq : p ≠ c.encode a ∨ q ≠ []) :
    ∃ e, c.decodeLines (c.encodeLines as ++ (p ++ q)) = .error e := by
  refine decodeLines_error as ?_ (by simp [hne]) (hc.fragments a b p q hp hne hq hpq)
  rw [List.mem_append, not_or]
  exact ⟨fun h => c.no_lineFeed a (hp.mem h), fun h => c.no_lineFeed b (hq.mem h)⟩

theorem LineCodec.SelfDelimiting.decodeLines_glued (as bs : List α) (hp : p <+: c.encode a)
    (hne : p ≠ []) :
    ∃ e, c.decodeLines (c.encodeLines as ++ (p ++ c.encodeLines (b :: bs))) = .error e := by
  rw [encodeLines_cons, ← List.append_assoc p]
  refine decodeLines_error_lineFeed as ?_ ?_ (by simp [hne])
    (hc.fragments a b p _ hp hne List.prefix_rfl (.inr (c.encode_ne_nil b))) _
  · rw [List.mem_append, not_or]
    exact ⟨fun h => c.no_lineFeed a (hp.mem h), c.no_lineFeed b⟩
  · rw [List.mem_append, not_or]
    exact ⟨fun h => c.no_carriageReturn a (hp.mem h), c.no_carriageReturn b⟩

theorem LineCodec.SelfDelimiting.decodeLines_trailing (as bs : List α) (hq : q <+: c.encode b)
    (d : α) : ∃ e, c.decodeLines
      (c.encodeLines as ++ (c.encode a ++ (q ++ c.encodeLines (d :: bs)))) = .error e := by
  have hline : ∃ e, c.decode (c.encode a ++ (q ++ c.encode d)) = .error e := by
    rcases eq_or_ne q [] with rfl | hne
    · have := hc.trailing a d (c.encode d) [] List.prefix_rfl (c.encode_ne_nil d)
      rwa [List.append_nil] at this
    · exact hc.trailing a b q _ hq hne
  have hout : ∀ x, x ∉ c.encode a → x ∉ c.encode b → x ∉ c.encode d →
      x ∉ c.encode a ++ (q ++ c.encode d) := by
    intro x ha hb hd
    rw [List.mem_append, List.mem_append, not_or, not_or]
    exact ⟨ha, fun h => hb (hq.mem h), hd⟩
  have herr := decodeLines_error_lineFeed as
    (hout _ (c.no_lineFeed a) (c.no_lineFeed b) (c.no_lineFeed d))
    (hout _ (c.no_carriageReturn a) (c.no_carriageReturn b) (c.no_carriageReturn d))
    (by simp) hline (c.encodeLines bs)
  rwa [encodeLines_cons, ← List.append_assoc q, ← List.append_assoc (c.encode a)]

/-- A record cut before its last byte makes the file unreadable. -/
theorem LineCodec.SelfDelimiting.decodeLines_torn (as : List α) {k : ℕ} (hk : 0 < k)
    (hlt : k < (c.encode a).length) :
    ∃ e, c.decodeLines (c.encodeLines as ++ (c.encode a).take k) = .error e := by
  have htake := hc.decodeLines_append (b := a) (q := []) as (List.take_prefix k (c.encode a))
    (by simp [c.encode_ne_nil]; omega) (List.nil_prefix) (.inl fun h => ?_)
  · rwa [List.append_nil] at htake
  · have := congrArg List.length h
    rw [List.length_take] at this
    omega

/-- A file is recovered whole exactly when no more than its last byte, a line feed, is missing. -/
theorem LineCodec.SelfDelimiting.recovers_take_iff (as : List α) (n : ℕ) :
    (∃ bs, c.decodeLines ((c.encodeLines as).take n) = .ok bs ∧ as <+: bs) ↔
      (c.encodeLines as).length ≤ n + 1 := by
  refine ⟨?_, fun hn => ⟨as, decodeLines_take hn, List.prefix_rfl⟩⟩
  rintro ⟨bs, hbs, hpre⟩
  by_contra hn
  obtain ⟨before, a, after, k, rfl, hk, rfl, htake⟩ := take_encodeLines
    (show n < (c.encodeLines as).length by omega)
  rw [htake] at hbs
  rcases Nat.eq_zero_or_pos k with rfl | hpos
  · -- the cut is between two records: this one and those after it are gone
    rw [List.take_zero, List.append_nil, decodeLines_encodeLines] at hbs
    cases hbs
    have hle := hpre.length_le
    simp at hle
  rcases hk.lt_or_eq with hlt | rfl
  · obtain ⟨e, he⟩ := hc.decodeLines_torn before hpos hlt
    rw [he] at hbs
    cases hbs
  · rw [List.take_length, decodeLines_unterminated] at hbs
    cases hbs
    obtain rfl : after = [] := by simpa using hpre.length_le
    rw [encodeLines_append, encodeLines_cons, List.length_append, List.length_append,
      encodeLines_nil, List.length_singleton] at hn
    omega

end SelfDelimiting
end Records
end LineFile
