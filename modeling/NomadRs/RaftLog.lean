import NomadRs.Chrono
import NomadRs.FileSystem
import NomadRs.State

/-!
# The disk-backed log

`RaftLogStore` is the in-memory log together with the three files at its path. The operations
are programs on memory and files: each `…_cases` lemma lists what an operation leaves behind when
its file updates stop after any number of steps. Index arithmetic wraps around, as in a release
build, and `usize` has 64 bits.
-/

open LineFile FileSystem Function

namespace NomadRs

structure RaftLogEntry where
  index : UInt64
  term : UInt64
  timestamp : DateTime
  command : Command

structure RaftSnapshot where
  state : StateStore
  lastIncludedIndex : UInt64
  lastIncludedTerm : UInt64

class SerdeJson where
  entry : LineCodec Error RaftLogEntry
  snapshot : Codec Error RaftSnapshot

instance : IoError Error := ⟨.io .other⟩

/-- The files at the path of a log: `.log`, `.snap` and `.snap.tmp`. -/
inductive RaftFile
  | log | snap | snapTmp
  deriving DecidableEq

abbrev RaftFiles := RaftFile → Option Bytes

def saturatingSub (a b : UInt64) : UInt64 := if b ≤ a then a - b else 0

structure RaftLogStore.Inner where
  entries : List RaftLogEntry
  baseIndex : UInt64

structure RaftLogStore where
  inner : RaftLogStore.Inner
  files : RaftFiles

namespace RaftLogStore

/-! ## Reading -/

namespace Inner

def get (self : Inner) (index : UInt64) : Option RaftLogEntry :=
  if index < self.baseIndex then none
  else self.entries[(index - self.baseIndex).toNat]?

def entriesFrom (self : Inner) (fromIndex : UInt64) : List RaftLogEntry :=
  if fromIndex < self.baseIndex then self.entries
  else self.entries.drop (fromIndex - self.baseIndex).toNat

def nextIndex (self : Inner) : UInt64 := self.baseIndex + UInt64.ofNat self.entries.length

def lastIndex (self : Inner) : UInt64 :=
  if self.entries.isEmpty then saturatingSub self.baseIndex 1
  else self.nextIndex - 1

def lastTerm (self : Inner) : UInt64 := (self.entries.getLast?.map RaftLogEntry.term).getD 0

def len (self : Inner) : Nat := self.entries.length

def isEmpty (self : Inner) : Bool := self.len == 0

end Inner

section Operations
variable [SerdeJson]

/-- The first index a store opened on these files starts at. -/
def baseIndexOf (files : RaftFiles) : Result UInt64 :=
  match files .snap with
  | none => .ok 1
  | some data => do
    let snap ← SerdeJson.snapshot.decode data
    return snap.lastIncludedIndex + 1

def entriesOf (files : RaftFiles) : Result (List RaftLogEntry) :=
  match files .log with
  | none => .ok []
  | some bytes => SerdeJson.entry.decodeLines bytes

def openAt (files : RaftFiles) : Result Inner := do
  let baseIndex ← baseIndexOf files
  let entries ← entriesOf files
  return { entries, baseIndex }

/-! ## Writing -/

abbrev StoreM := FileM RaftFile Inner Error

def Inner.newEntry (self : Inner) (term : UInt64) (command : Command) (now : DateTime) :
    RaftLogEntry := { index := self.nextIndex, term, timestamp := now, command }

def append (term : UInt64) (command : Command) (now : DateTime) : StoreM RaftLogEntry := do
  let inner ← FileM.getMem
  let entry := inner.newEntry term command now
  appendTo .log (SerdeJson.entry.encodeLine entry)
  FileM.setMem { inner with entries := inner.entries ++ [entry] }
  return entry

/-- What the two operations on snapshots do with the files; `keep` are the entries that stay. -/
def compact (snapshot : RaftSnapshot) (keep : List RaftLogEntry) : StoreM Unit := do
  replace .snapTmp .snap (SerdeJson.snapshot.encode snapshot)
  FileM.setMem { entries := keep, baseIndex := snapshot.lastIncludedIndex + 1 }
  rewrite .log (keep.map SerdeJson.entry.encodeLine)

/-- How many entries a snapshot up to `lastIncludedIndex` takes off the log. -/
def Inner.truncateCount (self : Inner) (lastIncludedIndex : UInt64) : Nat :=
  let truncateAt :=
    if self.baseIndex ≤ lastIncludedIndex then (lastIncludedIndex - self.baseIndex + 1).toNat
    else 0
  min truncateAt self.entries.length

def createSnapshot (state : StateStore) (lastIncludedTerm : UInt64) : StoreM RaftSnapshot := do
  let inner ← FileM.getMem
  let snapshot : RaftSnapshot :=
    { state, lastIncludedIndex := inner.lastIndex, lastIncludedTerm }
  compact snapshot (inner.entries.drop (inner.truncateCount snapshot.lastIncludedIndex))
  return snapshot

def installSnapshot (snapshot : RaftSnapshot) : StoreM Unit := compact snapshot []

/-- The number of entries below `fromIndex`, if no entry is missing. -/
def Inner.truncatePos (self : Inner) (fromIndex : UInt64) : Nat :=
  if self.baseIndex ≤ fromIndex then (fromIndex - self.baseIndex).toNat else 0

def truncate (fromIndex : UInt64) : StoreM Unit := do
  let inner ← FileM.getMem
  let pos := inner.truncatePos fromIndex
  if inner.entries.length ≤ pos then return ()
  else
    let entries := inner.entries.take pos
    FileM.setMem { inner with entries }
    rewrite .log (entries.map SerdeJson.entry.encodeLine)

def run {α : Type} (self : RaftLogStore) (op : StoreM α) (steps : ℕ) : Result α × RaftLogStore :=
  let (result, w) := op.run { files := self.files, mem := self.inner, steps }
  (result, { inner := w.mem, files := w.files })

omit [SerdeJson] in
theorem run_eq {α : Type} {self : RaftLogStore} {op : StoreM α} {steps : ℕ} {result : Result α}
    {w : World RaftFile Inner}
    (h : op.run { files := self.files, mem := self.inner, steps } = (result, w)) :
    self.run op steps = (result, { inner := w.mem, files := w.files }) := by rw [run, h]

/-! ## What an operation leaves behind -/

def Inner.push (self : Inner) (entry : RaftLogEntry) : Inner :=
  { self with entries := self.entries ++ [entry] }

/-- The bytes of the log file; a missing file counts as empty. -/
def logBytes (files : RaftFiles) : Bytes := (files .log).getD []

def setLog (files : RaftFiles) (bytes : Bytes) : RaftFiles := update files .log (some bytes)

omit [SerdeJson] in
@[simp] theorem logBytes_setLog (files : RaftFiles) (bytes : Bytes) :
    logBytes (setLog files bytes) = bytes := by simp [logBytes, setLog]

omit [SerdeJson] in
@[simp] theorem setLog_snap (files : RaftFiles) (bytes : Bytes) :
    setLog files bytes .snap = files .snap := by simp [setLog]

theorem flatten_encodeLine (entries : List RaftLogEntry) :
    (entries.map SerdeJson.entry.encodeLine).flatten = SerdeJson.entry.encodeLines entries :=
  rfl

/-- An append writes the whole line and takes the entry up, or a prefix of the line and fails. -/
theorem append_cases (s : RaftLogStore) (term : UInt64) (command : Command) (now : DateTime)
    (steps : ℕ) {entry : RaftLogEntry} (hentry : entry = s.inner.newEntry term command now) :
    let line := SerdeJson.entry.encodeLine entry
    (line.length < steps ∧ s.run (append term command now) steps =
      (.ok entry, ⟨s.inner.push entry, setLog s.files (logBytes s.files ++ line)⟩)) ∨
    (steps = 0 ∧ s.run (append term command now) steps = (.error (.io .other), s)) ∨
    ∃ n, steps = n + 1 ∧ n < line.length ∧ s.run (append term command now) steps =
      (.error (.io .other), ⟨s.inner, setLog s.files (logBytes s.files ++ line.take n)⟩) := by
  subst hentry
  dsimp only
  have happend : (append term command now).run { files := s.files, mem := s.inner, steps } =
      (do
        appendTo .log (SerdeJson.entry.encodeLine (s.inner.newEntry term command now))
        FileM.setMem (s.inner.push (s.inner.newEntry term command now))
        return s.inner.newEntry term command now : StoreM RaftLogEntry).run
          { files := s.files, mem := s.inner, steps } := rfl
  rcases appendTo_cases (ε := Error) .log
    (SerdeJson.entry.encodeLine (s.inner.newEntry term command now))
    { files := s.files, mem := s.inner, steps } with
    ⟨hsteps, hrun⟩ | ⟨n, w', hsteps, hrun, hmem, hfiles⟩
  · exact .inr (.inl ⟨hsteps, run_eq (happend.trans (FileM.run_bind_error hrun))⟩)
  · unfold outcome at hrun
    by_cases hn : (SerdeJson.entry.encodeLine (s.inner.newEntry term command now)).length ≤ n
    · rw [if_pos hn] at hrun
      rw [List.take_of_length_le hn] at hfiles
      refine .inl ⟨by simp only at hsteps; omega, ?_⟩
      rw [run_eq (happend.trans (FileM.run_bind_ok hrun)), hfiles]
      rfl
    · rw [if_neg hn] at hrun
      refine .inr (.inr ⟨n, hsteps, by omega, ?_⟩)
      rw [run_eq (happend.trans (FileM.run_bind_error hrun)), hmem, hfiles]
      rfl

theorem append_of_lt {s : RaftLogStore} {term : UInt64} {command : Command} {now : DateTime}
    {steps : ℕ} {entry : RaftLogEntry} (hentry : entry = s.inner.newEntry term command now)
    (hsteps : (SerdeJson.entry.encodeLine entry).length < steps) :
    s.run (append term command now) steps = (.ok entry, ⟨s.inner.push entry,
      setLog s.files (logBytes s.files ++ SerdeJson.entry.encodeLine entry)⟩) := by
  rcases s.append_cases term command now steps hentry with ⟨_, h⟩ | ⟨hzero, _⟩ | ⟨n, hn, hlt, _⟩
  · exact h
  · omega
  · omega

/-- The three stages of a compaction: the old snapshot with the old log, the new snapshot with
the old log, and the new snapshot with a prefix of the new log. Memory is ahead of the files in
the second. -/
theorem compact_cases (s : RaftLogStore) (snapshot : RaftSnapshot) (keep : List RaftLogEntry)
    (steps : ℕ) :
    let data := SerdeJson.snapshot.encode snapshot
    let inner : Inner := ⟨keep, snapshot.lastIncludedIndex + 1⟩
    ∃ result s', s.run (compact snapshot keep) steps = (result, s') ∧
      ((steps < data.length + 2 ∧ result = .error (.io .other) ∧ s'.inner = s.inner ∧
          s'.files .snap = s.files .snap ∧ s'.files .log = s.files .log) ∨
        (steps = data.length + 2 ∧ result = .error (.io .other) ∧ s'.inner = inner ∧
          s'.files .snap = some data ∧ s'.files .log = s.files .log) ∨
        ∃ n, steps = data.length + 3 + n ∧
          result = outcome (SerdeJson.entry.encodeLines keep) n ∧ s'.inner = inner ∧
          s'.files .snap = some data ∧
          s'.files .log = some ((SerdeJson.entry.encodeLines keep).take n)) := by
  rcases replace_cases (ε := Error) (by decide : RaftFile.snapTmp ≠ .snap)
    (SerdeJson.snapshot.encode snapshot) { files := s.files, mem := s.inner, steps } with
    ⟨hsteps, w, hrun, hmem, hfiles⟩ | ⟨n, hsteps, w, hrun, hmem, hleft, hsnap, hfiles⟩
  · refine ⟨_, _, run_eq (FileM.run_bind_error hrun), .inl ⟨hsteps, rfl, hmem, ?_, ?_⟩⟩
    · exact hfiles _ (by decide)
    · exact hfiles _ (by decide)
  · have hlog := hfiles .log (by decide) (by decide)
    rcases rewrite_cases (ε := Error) RaftFile.log (keep.map SerdeJson.entry.encodeLine)
      { w with mem := (⟨keep, snapshot.lastIncludedIndex + 1⟩ : Inner) } with
      ⟨hzero, hrun'⟩ | ⟨m, w', hm, hrun', hmem', hfiles'⟩
    · have hcompact : s.run (compact snapshot keep) steps = _ :=
        run_eq ((FileM.run_bind_ok hrun).trans hrun')
      rw [hcompact]
      refine ⟨_, _, rfl, .inr (.inl ⟨?_, rfl, rfl, hsnap, hlog⟩)⟩
      simp only at hsteps hzero
      omega
    · have hcompact : s.run (compact snapshot keep) steps = _ :=
        run_eq ((FileM.run_bind_ok hrun).trans hrun')
      rw [hcompact]
      refine ⟨_, _, rfl, .inr (.inr ⟨m, ?_, rfl, hmem', ?_, ?_⟩)⟩
      · simp only at hsteps hm
        omega
      · simp [hfiles', hsnap]
      · simp [hfiles', flatten_encodeLine]

theorem run_createSnapshot (s : RaftLogStore) (state : StateStore) (lastIncludedTerm : UInt64)
    (steps : ℕ) :
    let snapshot : RaftSnapshot :=
      { state, lastIncludedIndex := s.inner.lastIndex, lastIncludedTerm }
    let r := s.run (compact snapshot
      (s.inner.entries.drop (s.inner.truncateCount s.inner.lastIndex))) steps
    s.run (createSnapshot state lastIncludedTerm) steps = (r.1.map fun _ => snapshot, r.2) := by
  intro snapshot r
  have hprogram : (createSnapshot state lastIncludedTerm).run
      { files := s.files, mem := s.inner, steps } =
        (do
          compact snapshot (s.inner.entries.drop (s.inner.truncateCount s.inner.lastIndex))
          return snapshot : StoreM RaftSnapshot).run
            { files := s.files, mem := s.inner, steps } := rfl
  rcases hcompact : (compact snapshot
    (s.inner.entries.drop (s.inner.truncateCount s.inner.lastIndex))).run
      { files := s.files, mem := s.inner, steps } with ⟨_ | _, w⟩
  · rw [run_eq (hprogram.trans (FileM.run_bind_error hcompact)),
      show r = _ from run_eq hcompact]
    rfl
  · rw [run_eq (hprogram.trans (FileM.run_bind_ok hcompact)), show r = _ from run_eq hcompact]
    rfl

/-- A truncation returns early, or cuts memory first and then rewrites the file. -/
theorem truncate_cases (s : RaftLogStore) (fromIndex : UInt64) (steps : ℕ) :
    let kept := s.inner.entries.take (s.inner.truncatePos fromIndex)
    let text := SerdeJson.entry.encodeLines kept
    (s.inner.entries.length ≤ s.inner.truncatePos fromIndex ∧
      s.run (truncate fromIndex) steps = (.ok (), s)) ∨
    (s.inner.truncatePos fromIndex < s.inner.entries.length ∧
      ((steps = 0 ∧ s.run (truncate fromIndex) steps =
          (.error (.io .other), ⟨{ s.inner with entries := kept }, s.files⟩)) ∨
        ∃ n, steps = n + 1 ∧ s.run (truncate fromIndex) steps =
          (outcome text n, ⟨{ s.inner with entries := kept }, setLog s.files (text.take n)⟩))) := by
  by_cases hpos : s.inner.entries.length ≤ s.inner.truncatePos fromIndex
  · refine .inl ⟨hpos, run_eq (w := { files := s.files, mem := s.inner, steps }) ?_⟩
    rw [truncate, FileM.run_getMem_bind]
    dsimp only
    rw [if_pos hpos, FileM.run_pure]
  · refine .inr ⟨by omega, ?_⟩
    have hcut : (truncate fromIndex).run { files := s.files, mem := s.inner, steps } =
        (rewrite (ε := Error) RaftFile.log ((s.inner.entries.take
          (s.inner.truncatePos fromIndex)).map SerdeJson.entry.encodeLine)).run
          { files := s.files, steps, mem := { s.inner with
              entries := s.inner.entries.take (s.inner.truncatePos fromIndex) } } := by
      rw [truncate, FileM.run_getMem_bind]
      dsimp only
      rw [if_neg hpos, FileM.run_setMem_bind]
    rcases rewrite_cases (ε := Error) RaftFile.log
      ((s.inner.entries.take (s.inner.truncatePos fromIndex)).map SerdeJson.entry.encodeLine)
      { files := s.files, steps, mem := { s.inner with
          entries := s.inner.entries.take (s.inner.truncatePos fromIndex) } } with
      ⟨hzero, hrun⟩ | ⟨n, w', hn, hrun, hmem, hfiles⟩
    · exact .inl ⟨hzero, run_eq (hcut.trans hrun)⟩
    · refine .inr ⟨n, hn, ?_⟩
      rw [run_eq (hcut.trans hrun), hmem, hfiles]
      rfl

end Operations
end RaftLogStore
end NomadRs
