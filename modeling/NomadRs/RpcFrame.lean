import NomadRs.ByteStream
import NomadRs.Rpc

/-!
# RPC frames

A message travels as the length of its JSON in four bytes, highest first, and the JSON. A frame
over `maxFrame` is neither written nor read. What was written whole is read back message by
message, however the transport splits it. Where a stream is cut short `readFrame` reports it,
except inside a length: there the missing bytes look like a connection closed between two frames.
-/

open LineFile ByteStream

namespace NomadRs

structure Json (α : Type) where
  toVec : α → Except String Bytes
  fromSlice : Bytes → Except String α
  fromSlice_toVec : ∀ msg data, toVec msg = .ok data → fromSlice data = .ok msg

def maxFrame : ℕ := 8 * 1024 * 1024

variable {α : Type} (json : Json α)

/-- `w` are the bytes on the transport. -/
def writeFrame (w : Bytes) (msg : α) : Result Unit × Bytes :=
  match json.toVec msg with
  | .error e => (.error (.serialize e), w)
  | .ok data =>
    if data.length > maxFrame then (.error (.runtime "rpc frame exceeds maximum size"), w)
    else if data.length ≥ UInt32.size then (.error (.runtime "rpc frame length overflow"), w)
    else (.ok (), w ++ toBeBytes (UInt32.ofNat data.length) ++ data)

/-- `read_frame` behind the length. -/
def readBody (len : ℕ) (r : Stream) : Result (Option α) × Stream :=
  if len > maxFrame then (.error (.runtime "rpc frame exceeds maximum size"), r)
  else
    match readExact len r with
    | (none, r) => (.error (.io .unexpectedEof), r)
    | (some buf, r) =>
      match json.fromSlice buf with
      | .error e => (.error (.serialize e), r)
      | .ok msg => (.ok (some msg), r)

def readFrame (r : Stream) : Result (Option α) × Stream :=
  match readExact 4 r with
  | (none, r) => (.ok none, r)
  | (some lenBuf, r) => readBody json (fromBeBytes lenBuf).toNat r

/-! ## One frame -/

/-- The JSON of the message exists and is at most `maxFrame` bytes long. -/
def Fits (msg : α) : Prop := ∃ data, json.toVec msg = .ok data ∧ data.length ≤ maxFrame

instance (msg : α) : Decidable (Fits json msg) :=
  match h : json.toVec msg with
  | .error _ => .isFalse (by rintro ⟨data, hd, -⟩; rw [h] at hd; cases hd)
  | .ok data => decidable_of_iff (data.length ≤ maxFrame)
      ⟨fun hle => ⟨data, h, hle⟩, by rintro ⟨d, hd, hle⟩; rw [h] at hd; cases hd; exact hle⟩

def frame (data : Bytes) : Bytes := toBeBytes (UInt32.ofNat data.length) ++ data

def emitted (msg : α) : Bytes := (writeFrame json [] msg).2

variable {json}

@[simp] theorem length_frame (data : Bytes) : (frame data).length = data.length + 4 := by
  rw [frame, List.length_append, length_toBeBytes, Nat.add_comm]

theorem toNat_ofNat_of_le_maxFrame {n : ℕ} (h : n ≤ maxFrame) : (UInt32.ofNat n).toNat = n := by
  rw [UInt32.toNat_ofNat']
  exact Nat.mod_eq_of_lt (by rw [maxFrame] at h; omega)

theorem writeFrame_of_fits {msg : α} {data : Bytes} (h : json.toVec msg = .ok data)
    (hle : data.length ≤ maxFrame) (w : Bytes) :
    writeFrame json w msg = (.ok (), w ++ frame data) := by
  have hsize : ¬ data.length ≥ UInt32.size := by
    rw [maxFrame] at hle
    change ¬ data.length ≥ 4294967296
    omega
  rw [writeFrame, h]
  simp only [if_neg hle.not_gt, if_neg hsize, frame, List.append_assoc]

theorem writeFrame_of_not_fits {msg : α} (h : ¬ Fits json msg) (w : Bytes) :
    ∃ e, writeFrame json w msg = (.error e, w) := by
  rw [writeFrame]
  cases hd : json.toVec msg with
  | error e => exact ⟨_, rfl⟩
  | ok data =>
      have hgt : data.length > maxFrame := by
        by_contra hle
        exact h ⟨data, hd, by omega⟩
      exact ⟨_, if_pos hgt⟩

theorem writeFrame_eq_ok_iff {w : Bytes} {msg : α} :
    (writeFrame json w msg).1 = .ok () ↔ Fits json msg := by
  constructor
  · intro h
    by_contra hfits
    obtain ⟨e, he⟩ := writeFrame_of_not_fits hfits w
    rw [he] at h
    cases h
  · rintro ⟨data, hd, hle⟩
    rw [writeFrame_of_fits hd hle]

theorem emitted_of_fits {msg : α} {data : Bytes} (h : json.toVec msg = .ok data)
    (hle : data.length ≤ maxFrame) : emitted json msg = frame data := by
  rw [emitted, writeFrame_of_fits h hle, List.nil_append]

theorem emitted_of_not_fits {msg : α} (h : ¬ Fits json msg) : emitted json msg = [] := by
  obtain ⟨e, he⟩ := writeFrame_of_not_fits h []
  rw [emitted, he]

theorem writeFrame_snd (w : Bytes) (msg : α) :
    (writeFrame json w msg).2 = w ++ emitted json msg := by
  by_cases h : Fits json msg
  · obtain ⟨data, hd, hle⟩ := h
    rw [writeFrame_of_fits hd hle, emitted_of_fits hd hle]
  · obtain ⟨e, he⟩ := writeFrame_of_not_fits h w
    rw [he, emitted_of_not_fits h, List.append_nil]

theorem readFrame_of_lt {r : Stream} (h : (bytes r).length < 4) :
    readFrame json r = (.ok none, []) := by
  rw [readFrame, readExact_of_lt h]

variable (json) in
theorem readFrame_of_header {r : Stream} {header rest : Bytes} (hlen : header.length = 4)
    (h : bytes r = header ++ rest) : ∃ r', bytes r' = rest ∧
      readFrame json r = readBody json (fromBeBytes header).toNat r' := by
  obtain ⟨r', hread, hrest⟩ := readExact_of_le (n := 4) (s := r)
    (by rw [h, List.length_append]; omega)
  rw [h, List.take_left' hlen] at hread
  rw [h, List.drop_left' hlen] at hrest
  refine ⟨r', hrest, ?_⟩
  rw [readFrame, hread]

theorem readFrame_oversized {r : Stream} {header rest : Bytes} (hlen : header.length = 4)
    (h : bytes r = header ++ rest) (hover : (fromBeBytes header).toNat > maxFrame) :
    (readFrame json r).1 = .error (.runtime "rpc frame exceeds maximum size") ∧
      bytes (readFrame json r).2 = rest := by
  obtain ⟨r', hrest, hread⟩ := readFrame_of_header json hlen h
  rw [hread, readBody, if_pos hover]
  exact ⟨rfl, hrest⟩

theorem readFrame_frame {r : Stream} {data rest : Bytes} {msg : α} (hle : data.length ≤ maxFrame)
    (hmsg : json.fromSlice data = .ok msg) (h : bytes r = frame data ++ rest) :
    ∃ r', bytes r' = rest ∧ readFrame json r = (.ok (some msg), r') := by
  rw [frame, List.append_assoc] at h
  obtain ⟨r', hrest, hread⟩ := readFrame_of_header json (length_toBeBytes _) h
  rw [fromBeBytes_toBeBytes, toNat_ofNat_of_le_maxFrame hle, readBody, if_neg hle.not_gt] at hread
  obtain ⟨r'', hbody, hrest'⟩ := readExact_of_le (n := data.length) (s := r')
    (by rw [hrest, List.length_append]; omega)
  rw [hrest, List.take_left] at hbody
  rw [hrest, List.drop_left] at hrest'
  rw [hbody] at hread
  simp only [hmsg] at hread
  exact ⟨r'', hrest', hread⟩

theorem readFrame_cut {r : Stream} {data : Bytes} {k : ℕ} (hle : data.length ≤ maxFrame)
    (hk : 4 ≤ k) (hlt : k < (frame data).length) (h : bytes r = (frame data).take k) :
    readFrame json r = (.error (.io .unexpectedEof), []) := by
  rw [length_frame] at hlt
  rw [frame, List.take_append, List.take_of_length_le (by simpa using hk), length_toBeBytes] at h
  obtain ⟨r', hrest, hread⟩ := readFrame_of_header json (length_toBeBytes _) h
  rw [hread, fromBeBytes_toBeBytes, toNat_ofNat_of_le_maxFrame hle, readBody, if_neg hle.not_gt,
    readExact_of_lt]
  rw [hrest, List.length_take]
  omega

/-! ## Streams of frames -/

variable (json) in
theorem length_readBody_le (len : ℕ) (r : Stream) :
    (bytes (readBody json len r).2).length ≤ (bytes r).length := by
  have hle : (bytes (readExact len r).2).length ≤ (bytes r).length := by
    rw [bytes_readExact_snd, List.length_drop]
    omega
  rw [readBody]
  split_ifs
  · exact le_rfl
  · rcases h : readExact len r with ⟨_ | buf, r'⟩ <;> rw [h] at hle
    · exact hle
    · simp only
      split <;> exact hle

theorem readFrame_shrinks {r r' : Stream} {msg : α} (h : readFrame json r = (.ok (some msg), r')) :
    (bytes r').length < (bytes r).length := by
  rcases Nat.lt_or_ge (bytes r).length 4 with hlt | hge
  · rw [readFrame_of_lt hlt] at h
    cases h
  · obtain ⟨header, rest, hlen, hbytes⟩ : ∃ header rest, header.length = 4 ∧
        bytes r = header ++ rest :=
      ⟨_, _, List.length_take_of_le hge, (List.take_append_drop 4 _).symm⟩
    obtain ⟨r₁, hrest, hread⟩ := readFrame_of_header json hlen hbytes
    have hle := length_readBody_le json (fromBeBytes header).toNat r₁
    rw [← hread, h, hrest] at hle
    rw [hbytes, List.length_append]
    simp only at hle
    omega

variable (json) in
/-- `read_frame` again and again, up to the first `Ok(None)` or error. -/
def readAll (r : Stream) : List α × Result Unit :=
  match h : readFrame json r with
  | (.error e, _) => ([], .error e)
  | (.ok none, _) => ([], .ok ())
  | (.ok (some msg), r') =>
    have := readFrame_shrinks h
    let (msgs, result) := readAll r'
    (msg :: msgs, result)
termination_by (bytes r).length

variable (json) in
def writeFrames (msgs : List α) : Bytes := msgs.foldl (fun w msg => (writeFrame json w msg).2) []

theorem writeFrames_eq (msgs : List α) : writeFrames json msgs = msgs.flatMap (emitted json) := by
  have hfold : ∀ w, msgs.foldl (fun w msg => (writeFrame json w msg).2) w =
      w ++ msgs.flatMap (emitted json) := by
    induction msgs with
    | nil => simp
    | cons msg msgs ih =>
        intro w
        rw [List.foldl_cons, ih, writeFrame_snd, List.append_assoc, List.flatMap_cons]
  exact hfold []

theorem readAll_of_error {r r' : Stream} {e : Error} (h : readFrame json r = (.error e, r')) :
    readAll json r = ([], .error e) := by
  rw [readAll]
  split <;> simp_all

theorem readAll_of_none {r r' : Stream} (h : readFrame json r = (.ok none, r')) :
    readAll json r = ([], .ok ()) := by
  rw [readAll]
  split <;> simp_all

theorem readAll_of_some {r r' : Stream} {msg : α} (h : readFrame json r = (.ok (some msg), r')) :
    readAll json r = (msg :: (readAll json r').1, (readAll json r').2) := by
  rw [readAll]
  split <;> simp_all

/-- Whole frames are read back, and what follows them is read on its own. -/
theorem readAll_emitted_append (msgs : List α) {r : Stream} {tail : Bytes}
    (h : bytes r = msgs.flatMap (emitted json) ++ tail) : ∃ r', bytes r' = tail ∧
      readAll json r =
        (msgs.filter (fun msg => Fits json msg) ++ (readAll json r').1, (readAll json r').2) := by
  induction msgs generalizing r with
  | nil => exact ⟨r, h, rfl⟩
  | cons msg msgs ih =>
      rw [List.flatMap_cons, List.append_assoc] at h
      by_cases hfits : Fits json msg
      · obtain ⟨data, hd, hle⟩ := id hfits
        rw [emitted_of_fits hd hle] at h
        obtain ⟨r₁, hrest, hread⟩ := readFrame_frame hle (json.fromSlice_toVec msg data hd) h
        obtain ⟨r', htail, hall⟩ := ih hrest
        refine ⟨r', htail, ?_⟩
        rw [readAll_of_some hread, hall, List.filter_cons_of_pos (by simpa using hfits)]
        rfl
      · rw [emitted_of_not_fits hfits, List.nil_append] at h
        rw [List.filter_cons_of_neg (by simpa using hfits)]
        exact ih h

theorem readAll_writeFrames (msgs : List α) {r : Stream} (h : bytes r = writeFrames json msgs) :
    readAll json r = (msgs.filter (fun msg => Fits json msg), .ok ()) := by
  rw [writeFrames_eq, ← List.append_nil (msgs.flatMap _)] at h
  obtain ⟨r', htail, hall⟩ := readAll_emitted_append msgs h
  rw [hall, readAll_of_none (readFrame_of_lt (by simp [htail])), List.append_nil]

variable (json) in
/-- Frames survive the wire: those that fit and no others are written, what was written is read
back whole whatever the chunks, what is written is within the limit of the reader, and a length
above it is refused before the body. -/
theorem readAll_roundtrip :
    (∀ (w : Bytes) (msg : α), (writeFrame json w msg).1 = .ok () ↔
      ∃ data, json.toVec msg = .ok data ∧ data.length ≤ maxFrame) ∧
    (∀ (msgs : List α) (r : Stream), bytes r = writeFrames json msgs →
      readAll json r = (msgs.filter fun msg => (writeFrame json [] msg).1 = .ok (), .ok ())) ∧
    (∀ (w : Bytes) (msg : α), (writeFrame json w msg).1 = .ok () →
      ∃ header body, (writeFrame json w msg).2 = w ++ header ++ body ∧ header.length = 4 ∧
        (fromBeBytes header).toNat = body.length ∧ (fromBeBytes header).toNat ≤ maxFrame) ∧
    ∀ (header rest : Bytes) (r : Stream), header.length = 4 → bytes r = header ++ rest →
      (fromBeBytes header).toNat > maxFrame →
        (readFrame json r).1 = .error (.runtime "rpc frame exceeds maximum size") ∧
          bytes (readFrame json r).2 = rest := by
  refine ⟨fun w msg => writeFrame_eq_ok_iff, ?_, ?_, ?_⟩
  · intro msgs r h
    rw [readAll_writeFrames msgs h]
    simp only [writeFrame_eq_ok_iff]
  · intro w msg h
    obtain ⟨data, hd, hle⟩ := writeFrame_eq_ok_iff.1 h
    refine ⟨toBeBytes (UInt32.ofNat data.length), data, ?_, length_toBeBytes _, ?_⟩
    · rw [writeFrame_of_fits hd hle, frame, List.append_assoc]
    · rw [fromBeBytes_toBeBytes, toNat_ofNat_of_le_maxFrame hle]
      exact ⟨rfl, hle⟩
  · exact fun header rest r hlen h hover => readFrame_oversized hlen h hover

/-! ## Streams cut short -/

variable (json) in
def AtBoundary (msgs : List α) (k : ℕ) : Prop :=
  ∃ sent, sent <+: msgs ∧ k = (writeFrames json sent).length

variable (json) in
/-- A cut behind the first, second or third byte of a frame's length. -/
def InHeader (msgs : List α) (k : ℕ) : Prop :=
  ∃ sent, sent <+: msgs ∧
    (writeFrames json sent).length < k ∧ k < (writeFrames json sent).length + 4

variable (json) in
theorem emitted_cases (msg : α) : emitted json msg = [] ∨
    ∃ data, data.length ≤ maxFrame ∧ emitted json msg = frame data := by
  by_cases h : Fits json msg
  · obtain ⟨data, hd, hle⟩ := h
    exact .inr ⟨data, hle, emitted_of_fits hd hle⟩
  · exact .inl (emitted_of_not_fits h)

theorem writeFrames_append (sent rest : List α) :
    writeFrames json (sent ++ rest) = writeFrames json sent ++ writeFrames json rest := by
  simp [writeFrames_eq]

variable (json) in
/-- The next bytes on the transport are a whole header at least. -/
theorem length_writeFrames_cases (msgs : List α) :
    (writeFrames json msgs).length = 0 ∨ 4 ≤ (writeFrames json msgs).length := by
  rw [writeFrames_eq]
  induction msgs with
  | nil => exact .inl rfl
  | cons msg msgs ih =>
      rw [List.flatMap_cons, List.length_append]
      rcases emitted_cases json msg with h | ⟨data, _, h⟩
      · rw [h, List.length_nil, Nat.zero_add]
        exact ih
      · rw [h, length_frame]
        omega

/-- A cut falls into one frame: those before it have left whole, and of this one `j` bytes. -/
structure CutAt (json : Json α) (msgs : List α) (k : ℕ) (before : List α) (data : Bytes)
    (j : ℕ) : Prop where
  sent : before <+: msgs
  fits : data.length ≤ maxFrame
  lt : j < data.length + 4
  eq : k = (writeFrames json before).length + j
  take : (writeFrames json msgs).take k = writeFrames json before ++ (frame data).take j
  /-- There is no boundary inside the frame, nor closer than a header before it. -/
  frames : ∀ sent, sent <+: msgs →
    (writeFrames json sent).length = (writeFrames json before).length ∨
    (writeFrames json sent).length + 4 ≤ (writeFrames json before).length ∨
    (writeFrames json before).length + (data.length + 4) ≤ (writeFrames json sent).length

theorem exists_cutAt {msgs : List α} {k : ℕ} (hk : k < (writeFrames json msgs).length) :
    ∃ before data j, CutAt json msgs k before data j := by
  rw [writeFrames_eq] at hk
  obtain ⟨before, part, after, j, rfl, hj, heq, htake⟩ := take_flatMap (emitted json) hk
  rw [← writeFrames_eq, ← writeFrames_eq] at htake
  rw [← writeFrames_eq] at heq
  obtain ⟨data, hle, hpart⟩ : ∃ data, data.length ≤ maxFrame ∧ emitted json part = frame data := by
    rcases emitted_cases json part with h | h
    · rw [h] at hj
      cases hj
    · exact h
  rw [hpart] at hj htake
  rw [length_frame] at hj
  refine ⟨before, data, j, List.prefix_append _ _, hle, hj, heq, htake, ?_⟩
  intro sent hsent
  rcases Nat.lt_or_ge before.length sent.length with hlt | hge
  · have hmore : before ++ [part] <+: sent := by
      refine List.prefix_of_prefix_length_le ⟨after, by simp⟩ hsent ?_
      rw [List.length_append]
      exact hlt
    obtain ⟨more, rfl⟩ := hmore
    right; right
    rw [writeFrames_append, writeFrames_append, List.length_append, List.length_append]
    have hone : (writeFrames json [part]).length = data.length + 4 := by
      rw [writeFrames_eq, List.flatMap_singleton, hpart, length_frame]
    omega
  · obtain ⟨more, rfl⟩ := List.prefix_of_prefix_length_le hsent (List.prefix_append _ _) hge
    rw [writeFrames_append, List.length_append]
    have := length_writeFrames_cases json more
    omega

section CutAt
variable {msgs before : List α} {data : Bytes} {j k : ℕ} (h : CutAt json msgs k before data j)
include h

theorem CutAt.atBoundary_iff : AtBoundary json msgs k ↔ j = 0 := by
  have hlt := h.lt
  have heq := h.eq
  constructor
  · rintro ⟨sent, hsent, hk⟩
    have := h.frames sent hsent
    omega
  · rintro rfl
    exact ⟨before, h.sent, heq⟩

theorem CutAt.inHeader_iff : InHeader json msgs k ↔ 0 < j ∧ j < 4 := by
  have hlt := h.lt
  have heq := h.eq
  constructor
  · rintro ⟨sent, hsent, hk⟩
    have := h.frames sent hsent
    omega
  · rintro ⟨hpos, hj⟩
    exact ⟨before, h.sent, by omega, by omega⟩

/-- What is missing is noticed from the fourth byte of the header on. -/
theorem CutAt.readAll_snd {r : Stream} (hr : bytes r = (writeFrames json msgs).take k) :
    (readAll json r).2 = if j < 4 then .ok () else .error (.io .unexpectedEof) := by
  rw [h.take, writeFrames_eq] at hr
  obtain ⟨r', htail, hall⟩ := readAll_emitted_append before hr
  rw [hall]
  split_ifs with hj
  · rw [readAll_of_none (readFrame_of_lt (by rw [htail, List.length_take]; omega))]
  · have hlt := h.lt
    rw [← length_frame] at hlt
    rw [readAll_of_error (readFrame_cut h.fits (by omega) hlt htail)]

end CutAt

/-- A stream cut short is taken for a whole one exactly if it is one, unless it was cut inside the
length of a frame. -/
theorem truncation_detected_iff (msgs : List α) (k : ℕ) (r : Stream)
    (hk : k < (writeFrames json msgs).length) (hr : bytes r = (writeFrames json msgs).take k) :
    (((readAll json r).2 = .ok () ↔ AtBoundary json msgs k) ∧
      (¬ AtBoundary json msgs k → ∃ e, (readAll json r).2 = .error e)) ↔
        ¬ InHeader json msgs k := by
  obtain ⟨before, data, j, hcut⟩ := exists_cutAt hk
  rw [hcut.readAll_snd hr, hcut.atBoundary_iff, hcut.inHeader_iff]
  rcases Nat.lt_or_ge j 4 with hj | hj
  · rw [if_pos hj]
    constructor
    · rintro ⟨hiff, -⟩ ⟨hpos, -⟩
      exact hpos.ne' (hiff.1 rfl)
    · intro hin
      have hzero : j = 0 := by omega
      exact ⟨iff_of_true rfl hzero, fun hne => absurd hzero hne⟩
  · rw [if_neg (by omega)]
    refine iff_of_true ⟨iff_of_false (by simp) (by omega), fun _ => ⟨_, rfl⟩⟩ (by omega)

/-! ## A request to take off a job -/

def xRequest : Request := .jobDeregister "x"

def xText : Bytes := asciiBytes "\x7b\"JobDeregister\":\"x\"\x7d"

/-- `serde_json` at that request; what it does with others is left out. -/
def Json.sample : Json Request where
  toVec
    | .jobDeregister "x" => .ok xText
    | _ => .error "other request"
  fromSlice data := if data = xText then .ok xRequest else .error "expected value"
  fromSlice_toVec msg data h := by
    split at h <;> cases h
    rfl

def xChunks : Stream :=
  [⟨[0, 0], by decide⟩, ⟨0 :: 21 :: xText.take 3, by decide⟩, ⟨xText.drop 3, by decide +kernel⟩]

theorem bytes_xChunks : bytes xChunks = writeFrames Json.sample [xRequest] := by decide +kernel

theorem readAll_roundtrip_x : readAll Json.sample xChunks = ([xRequest], .ok ()) ∧
    (∃ header body, (writeFrame Json.sample [] xRequest).2 = [] ++ header ++ body ∧
      header.length = 4 ∧ (fromBeBytes header).toNat = body.length ∧
      (fromBeBytes header).toNat ≤ maxFrame) ∧
    (readFrame Json.sample [⟨[1, 0, 0, 0, 7], by decide⟩]).1 =
      .error (.runtime "rpc frame exceeds maximum size") := by
  obtain ⟨-, hread, hemit, hover⟩ := readAll_roundtrip Json.sample
  have hok : (writeFrame Json.sample [] xRequest).1 = .ok () := by decide +kernel
  refine ⟨?_, hemit [] xRequest hok, ?_⟩
  · rw [hread [xRequest] xChunks bytes_xChunks, List.filter_cons_of_pos (by simpa using hok)]
    rfl
  · exact (hover [1, 0, 0, 0] [7] _ rfl rfl (by decide)).1

theorem truncation_detected_iff_x :
    (((readAll Json.sample [⟨[0, 0, 0, 21], by decide⟩]).2 = .ok () ↔
        AtBoundary Json.sample [xRequest] 4) ∧
      (¬ AtBoundary Json.sample [xRequest] 4 →
        ∃ e, (readAll Json.sample [⟨[0, 0, 0, 21], by decide⟩]).2 = .error e)) ↔
      ¬ InHeader Json.sample [xRequest] 4 :=
  truncation_detected_iff [xRequest] 4 _ (by decide +kernel) (by decide +kernel)

/-- A stream that ends inside the length of its only frame passes for an empty one. -/
theorem truncation_missed : ¬ ∀ (json : Json Request) (msgs : List Request) (k : ℕ) (r : Stream),
    k < (writeFrames json msgs).length → bytes r = (writeFrames json msgs).take k →
      ((readAll json r).2 = .ok () ↔ AtBoundary json msgs k) ∧
        (¬ AtBoundary json msgs k → ∃ e, (readAll json r).2 = .error e) := by
  intro h
  obtain ⟨hiff, -⟩ := h Json.sample [xRequest] 2 [⟨[0, 0], by decide⟩] (by decide +kernel)
    (by decide +kernel)
  obtain ⟨sent, hsent, hlen⟩ := hiff.1 (by rw [readAll_of_none (readFrame_of_lt (by decide))])
  have hzero : (writeFrames Json.sample ([] : List Request)).length = 0 := rfl
  have hone : (writeFrames Json.sample [xRequest]).length = 25 := by decide +kernel
  rcases List.prefix_cons_iff.1 hsent with rfl | ⟨sent', rfl, hnil⟩
  · omega
  · rw [List.prefix_nil.1 hnil] at hlen
    omega

end NomadRs
