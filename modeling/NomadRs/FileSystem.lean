import NomadRs.LineFile

/-!
# File updates that may stop at any step

A `FileM` program works on files and on the memory of its process, and has a number of steps to
go: writing a byte, creating a file, opening one for appending and renaming one take a step each.
The step after the last one fails, the failure ends the program, and what was written so far
stays. So a run with `n` steps to go ends in the state a crash or an I/O failure leaves behind
after `n` steps, and one with enough of them ends regularly.

Every lemma about a program says which files it leaves for every number of steps: `replace`
changes a file all at once, `rewrite` and `appendTo` leave a prefix of the new text.
-/

open LineFile Function

namespace FileSystem

/-- Files, memory of the process, and the steps to go. -/
structure World (φ σ : Type) where
  files : φ → Option Bytes
  mem : σ
  steps : ℕ

/-- The error a failed step is reported as. -/
class IoError (ε : Type) where
  io : ε

structure FileM (φ σ ε α : Type) where
  run : World φ σ → Except ε α × World φ σ

variable {φ σ ε α β : Type}

instance : Monad (FileM φ σ ε) where
  pure a := ⟨fun w => (.ok a, w)⟩
  bind x f := ⟨fun w =>
    match x.run w with
    | (.ok a, w') => (f a).run w'
    | (.error e, w') => (.error e, w')⟩

namespace FileM

theorem run_pure (a : α) (w : World φ σ) : (pure a : FileM φ σ ε α).run w = (.ok a, w) := rfl

theorem run_bind (x : FileM φ σ ε α) (f : α → FileM φ σ ε β) (w : World φ σ) :
    (x >>= f).run w = match x.run w with
      | (.ok a, w') => (f a).run w'
      | (.error e, w') => (.error e, w') := rfl

theorem run_bind_ok {x : FileM φ σ ε α} {f : α → FileM φ σ ε β} {w w' : World φ σ} {a : α}
    (h : x.run w = (.ok a, w')) : (x >>= f).run w = (f a).run w' := by rw [run_bind, h]

theorem run_bind_error {x : FileM φ σ ε α} {f : α → FileM φ σ ε β} {w w' : World φ σ} {e : ε}
    (h : x.run w = (.error e, w')) : (x >>= f).run w = (.error e, w') := by rw [run_bind, h]

def getMem : FileM φ σ ε σ := ⟨fun w => (.ok w.mem, w)⟩

def setMem (mem : σ) : FileM φ σ ε Unit := ⟨fun w => (.ok (), { w with mem })⟩

def ofExcept (x : Except ε α) : FileM φ σ ε α := ⟨fun w => (x, w)⟩

theorem run_getMem_bind (f : σ → FileM φ σ ε β) (w : World φ σ) :
    (getMem >>= f).run w = (f w.mem).run w := rfl

theorem run_setMem_bind (mem : σ) (f : Unit → FileM φ σ ε β) (w : World φ σ) :
    (setMem mem >>= f).run w = (f ()).run { w with mem } := rfl

end FileM

section Files
variable [IoError ε]

def step (f : (φ → Option Bytes) → φ → Option Bytes) : FileM φ σ ε Unit := ⟨fun w =>
  match w.steps with
  | 0 => (.error IoError.io, w)
  | n + 1 => (.ok (), { w with files := f w.files, steps := n })⟩

variable [DecidableEq φ]

def create (path : φ) : FileM φ σ ε Unit := step fun files => update files path (some [])

/-- Opening for appending, which creates the file if there is none. -/
def openAppend (path : φ) : FileM φ σ ε Unit :=
  step fun files => update files path (some ((files path).getD []))

def rename (source target : φ) : FileM φ σ ε Unit :=
  step fun files => update (update files target (files source)) source none

/-- Writing byte after byte at the end of an open file. -/
def writeAll (path : φ) (data : Bytes) : FileM φ σ ε Unit := ⟨fun w =>
  let files := update w.files path (some ((w.files path).getD [] ++ data.take w.steps))
  if data.length ≤ w.steps then (.ok (), { w with files, steps := w.steps - data.length })
  else (.error IoError.io, { w with files, steps := 0 })⟩

def writeEach (path : φ) : List Bytes → FileM φ σ ε Unit
  | [] => pure ()
  | data :: rest => do
    writeAll path data
    writeEach path rest

/-- Writing a temporary file and renaming it. -/
def replace (temp path : φ) (data : Bytes) : FileM φ σ ε Unit := do
  create temp
  writeAll temp data
  rename temp path

def rewrite (path : φ) (texts : List Bytes) : FileM φ σ ε Unit := do
  create path
  writeEach path texts

def appendTo (path : φ) (data : Bytes) : FileM φ σ ε Unit := do
  openAppend path
  writeAll path data

/-! ## What is left after any number of steps -/

variable {w : World φ σ} {path temp : φ}

omit [DecidableEq φ] in
theorem step_zero {f : (φ → Option Bytes) → φ → Option Bytes} (h : w.steps = 0) :
    (step f : FileM φ σ ε Unit).run w = (.error IoError.io, w) := by simp [step, h]

omit [DecidableEq φ] in
theorem step_succ {f : (φ → Option Bytes) → φ → Option Bytes} {n : ℕ} (h : w.steps = n + 1) :
    (step f : FileM φ σ ε Unit).run w = (.ok (), { w with files := f w.files, steps := n }) := by
  simp [step, h]

theorem writeAll_of_le {data : Bytes} (h : data.length ≤ w.steps) :
    (writeAll path data : FileM φ σ ε Unit).run w =
      (.ok (), { w with
        files := update w.files path (some ((w.files path).getD [] ++ data))
        steps := w.steps - data.length }) := by
  simp [writeAll, h, List.take_of_length_le]

theorem writeAll_of_lt {data : Bytes} (h : w.steps < data.length) :
    (writeAll path data : FileM φ σ ε Unit).run w =
      (.error IoError.io, { w with
        files := update w.files path (some ((w.files path).getD [] ++ data.take w.steps))
        steps := 0 }) := by
  simp [writeAll, Nat.not_le.2 h]

theorem writeEach_eq_writeAll {texts : List Bytes} {content : Bytes}
    (h : w.files path = some content) :
    (writeEach path texts : FileM φ σ ε Unit).run w = (writeAll path texts.flatten).run w := by
  induction texts generalizing w content with
  | nil =>
      rw [writeAll_of_le (by simp), writeEach, FileM.run_pure]
      simp [h, update_eq_self_iff.2]
  | cons data rest ih =>
      rw [writeEach, List.flatten_cons]
      rcases Nat.lt_or_ge w.steps data.length with hlt | hle
      · rw [FileM.run_bind_error (writeAll_of_lt hlt), writeAll_of_lt (by simp; omega),
          List.take_append_of_le_length hlt.le]
      · rw [FileM.run_bind_ok (writeAll_of_le hle), ih (update_self ..)]
        simp only [writeAll, update_self, update_idem, h, Option.getD_some, List.length_append]
        rw [List.take_append, List.take_of_length_le hle, List.append_assoc]
        by_cases hrest : rest.flatten.length ≤ w.steps - data.length
        · rw [if_pos hrest, if_pos (by omega), Nat.sub_sub]
        · rw [if_neg hrest, if_neg (by omega)]

def outcome (data : Bytes) (n : ℕ) : Except ε Unit :=
  if data.length ≤ n then .ok () else .error IoError.io

theorem writeAll_spec (path : φ) (data : Bytes) (w : World φ σ) :
    ∃ w', (writeAll path data : FileM φ σ ε Unit).run w = (outcome data w.steps, w') ∧
      w'.mem = w.mem ∧ w'.files =
        update w.files path (some ((w.files path).getD [] ++ data.take w.steps)) := by
  simp only [writeAll, outcome]
  split <;> exact ⟨_, rfl, rfl, rfl⟩

/-- A file is replaced all at once: before the renaming, only the temporary file changes. -/
theorem replace_cases (hne : temp ≠ path) (data : Bytes) (w : World φ σ) :
    (w.steps < data.length + 2 ∧
      ∃ w', (replace temp path data : FileM φ σ ε Unit).run w = (.error IoError.io, w') ∧
        w'.mem = w.mem ∧ ∀ f, f ≠ temp → w'.files f = w.files f) ∨
    ∃ n, w.steps = data.length + 2 + n ∧
      ∃ w', (replace temp path data : FileM φ σ ε Unit).run w = (.ok (), w') ∧
        w'.mem = w.mem ∧ w'.steps = n ∧ w'.files path = some data ∧
        ∀ f, f ≠ temp → f ≠ path → w'.files f = w.files f := by
  unfold replace create rename
  cases hw : w.steps with
  | zero =>
      rw [FileM.run_bind_error (step_zero hw)]
      exact .inl ⟨by omega, w, rfl, rfl, fun _ _ => rfl⟩
  | succ k =>
      rw [FileM.run_bind_ok (step_succ hw)]
      rcases Nat.lt_or_ge k data.length with hlt | hle
      · rw [FileM.run_bind_error (writeAll_of_lt hlt)]
        exact .inl ⟨by omega, _, rfl, rfl, fun f hf => by simp [hf]⟩
      · rw [FileM.run_bind_ok (writeAll_of_le hle)]
        cases hk : k - data.length with
        | zero =>
            rw [step_zero rfl]
            exact .inl ⟨by omega, _, rfl, rfl, fun f hf => by simp [hf]⟩
        | succ n =>
            rw [step_succ rfl]
            refine .inr ⟨n, by omega, _, rfl, rfl, rfl, by simp [hne.symm], fun f hf hp => ?_⟩
            simp [hf, hp]

/-- A rewritten file is untouched, or holds a prefix of the new text. -/
theorem rewrite_cases (path : φ) (texts : List Bytes) (w : World φ σ) :
    (w.steps = 0 ∧ (rewrite path texts : FileM φ σ ε Unit).run w = (.error IoError.io, w)) ∨
    ∃ n w', w.steps = n + 1 ∧
      (rewrite path texts : FileM φ σ ε Unit).run w = (outcome texts.flatten n, w') ∧
      w'.mem = w.mem ∧ w'.files = update w.files path (some (texts.flatten.take n)) := by
  unfold rewrite create
  cases hw : w.steps with
  | zero => exact .inl ⟨rfl, FileM.run_bind_error (step_zero hw)⟩
  | succ n =>
      rw [FileM.run_bind_ok (step_succ hw), writeEach_eq_writeAll (update_self ..)]
      obtain ⟨w', hrun, hmem, hfiles⟩ := writeAll_spec (ε := ε) path texts.flatten
        { w with files := update w.files path (some []), steps := n }
      exact .inr ⟨n, w', rfl, hrun, hmem, by simpa using hfiles⟩

theorem appendTo_cases (path : φ) (data : Bytes) (w : World φ σ) :
    (w.steps = 0 ∧ (appendTo path data : FileM φ σ ε Unit).run w = (.error IoError.io, w)) ∨
    ∃ n w', w.steps = n + 1 ∧
      (appendTo path data : FileM φ σ ε Unit).run w = (outcome data n, w') ∧
      w'.mem = w.mem ∧
      w'.files = update w.files path (some ((w.files path).getD [] ++ data.take n)) := by
  unfold appendTo openAppend
  cases hw : w.steps with
  | zero => exact .inl ⟨rfl, FileM.run_bind_error (step_zero hw)⟩
  | succ n =>
      rw [FileM.run_bind_ok (step_succ hw)]
      obtain ⟨w', hrun, hmem, hfiles⟩ := writeAll_spec (ε := ε) path data
        { w with files := update w.files path (some ((w.files path).getD [])), steps := n }
      exact .inr ⟨n, w', rfl, hrun, hmem, by simpa using hfiles⟩

end Files
end FileSystem
