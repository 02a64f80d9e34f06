import NomadRs.LineFile

/-!
# Byte streams in chunks

A stream hands out its bytes in chunks of any sizes and then ends. `readExact n` takes `n` bytes
off it, across as many chunks as it needs. What it reads, and what it leaves, depends on the
bytes of the stream alone. `toBeBytes` and `fromBeBytes` are 32-bit words, highest byte first.
-/

open LineFile

namespace ByteStream

/-- What one read of the transport yields: an empty read would be the end of the stream. -/
abbrev Chunk := { bytes : Bytes // bytes ≠ [] }

abbrev Stream := List Chunk

def bytes (s : Stream) : Bytes := s.flatMap Subtype.val

@[simp] theorem bytes_nil : bytes [] = [] := rfl

@[simp] theorem bytes_cons (c : Chunk) (s : Stream) : bytes (c :: s) = c.val ++ bytes s := rfl

/-- `none` if the stream ends first; it is used up then. -/
def readExact : ℕ → Stream → Option Bytes × Stream
  | 0, s => (some [], s)
  | _ + 1, [] => (none, [])
  | n + 1, c :: s =>
    if h : c.val.length ≤ n + 1 then
      let (rest, s) := readExact (n + 1 - c.val.length) s
      (rest.map (c.val ++ ·), s)
    else (some (c.val.take (n + 1)), ⟨c.val.drop (n + 1), by simp; omega⟩ :: s)

theorem readExact_of_le {n : ℕ} {s : Stream} (h : n ≤ (bytes s).length) :
    ∃ s', readExact n s = (some ((bytes s).take n), s') ∧ bytes s' = (bytes s).drop n := by
  induction s generalizing n with
  | nil =>
      obtain rfl : n = 0 := by simpa using h
      exact ⟨[], rfl, rfl⟩
  | cons c s ih =>
      cases n with
      | zero => exact ⟨c :: s, rfl, rfl⟩
      | succ n =>
          rw [bytes_cons, List.length_append] at h
          rw [readExact, bytes_cons]
          by_cases hc : c.val.length ≤ n + 1
          · obtain ⟨s', hread, hrest⟩ := ih (n := n + 1 - c.val.length) (by omega)
            rw [dif_pos hc, hread]
            refine ⟨s', ?_, ?_⟩
            · rw [List.take_append, List.take_of_length_le hc]
              rfl
            · rw [hrest, List.drop_append, List.drop_of_length_le hc, List.nil_append]
          · rw [dif_neg hc, List.take_append_of_le_length (by omega)]
            refine ⟨_, rfl, ?_⟩
            rw [bytes_cons, List.drop_append_of_le_length (by omega)]

theorem readExact_of_lt {n : ℕ} {s : Stream} (h : (bytes s).length < n) :
    readExact n s = (none, []) := by
  induction s generalizing n with
  | nil =>
      cases n with
      | zero => simp at h
      | succ n => rfl
  | cons c s ih =>
      rw [bytes_cons, List.length_append] at h
      cases n with
      | zero => omega
      | succ n => rw [readExact, dif_pos (by omega), ih (by omega)]; rfl

theorem bytes_readExact_snd (n : ℕ) (s : Stream) :
    bytes (readExact n s).2 = (bytes s).drop n := by
  rcases Nat.lt_or_ge (bytes s).length n with hlt | hge
  · rw [readExact_of_lt hlt, List.drop_of_length_le hlt.le]
    rfl
  · obtain ⟨s', hread, hrest⟩ := readExact_of_le hge
    rw [hread, hrest]

/-! ## Words -/

def toBeBytes (n : UInt32) : Bytes :=
  [(n >>> 24).toUInt8, (n >>> 16).toUInt8, (n >>> 8).toUInt8, n.toUInt8]

def fromBeBytes (bytes : Bytes) : UInt32 := bytes.foldl (fun n b => n * 256 + b.toUInt32) 0

@[simp] theorem length_toBeBytes (n : UInt32) : (toBeBytes n).length = 4 := rfl

@[simp] theorem fromBeBytes_toBeBytes (n : UInt32) : fromBeBytes (toBeBytes n) = n := by
  have hn := n.toNat_lt
  apply UInt32.toNat_inj.1
  simp only [fromBeBytes, toBeBytes, List.foldl, UInt32.toNat_add, UInt32.toNat_mul,
    UInt8.toNat_toUInt32, UInt32.toNat_toUInt8, UInt32.toNat_shiftRight, Nat.shiftRight_eq_div_pow,
    UInt32.toNat_ofNat]
  norm_num
  omega

end ByteStream
