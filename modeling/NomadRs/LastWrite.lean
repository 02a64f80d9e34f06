import Mathlib.Tactic

/-!
# Logs of keyed writes

A store is read by key, and a command writes one key, or nothing, whatever the store holds. So what
a log leaves of a key is the last write of it, or what was there before (`read_applyAll`).

Hence only the order among the writes of one key counts, not how those of different keys are mixed
(`read_eq_of_writes`). And a log that has been applied may be applied again
(`read_applyAll_again`), which is what makes it safe to restart a replay at an earlier place.
-/

/-- A store and its commands, with the key a command writes and what it leaves there. -/
structure KeyedStore (σ γ κ ν : Type*) where
  read : σ → κ → Option ν
  apply : σ → γ → σ
  target : γ → Option κ
  value : γ → Option ν
  read_apply : ∀ s c k, target c = some k → read (apply s c) k = value c
  read_apply_of_ne : ∀ s c k, target c ≠ some k → read (apply s c) k = read s k

namespace KeyedStore

variable {σ γ κ ν : Type*} [DecidableEq κ] (S : KeyedStore σ γ κ ν)

def applyAll (s : σ) (cs : List γ) : σ := cs.foldl S.apply s

def writes (k : κ) (cs : List γ) : List γ := cs.filter fun c => S.target c = some k

omit [DecidableEq κ] in
theorem applyAll_append (s : σ) (cs ds : List γ) :
    S.applyAll s (cs ++ ds) = S.applyAll (S.applyAll s cs) ds := List.foldl_append

theorem writes_append (k : κ) (cs ds : List γ) :
    S.writes k (cs ++ ds) = S.writes k cs ++ S.writes k ds := List.filter_append ..

/-- What a log leaves of a key is its last write of it. -/
theorem read_applyAll (s : σ) (cs : List γ) (k : κ) :
    S.read (S.applyAll s cs) k =
      ((S.writes k cs).getLast?.map S.value).getD (S.read s k) := by
  induction cs using List.reverseRecOn with
  | nil => rfl
  | append_singleton cs c ih =>
      rw [applyAll_append, writes_append]
      change S.read (S.apply (S.applyAll s cs) c) k = _
      by_cases hk : S.target c = some k
      · have hwrites : S.writes k [c] = [c] := List.filter_cons_of_pos (by simpa using hk)
        rw [S.read_apply _ c k hk, hwrites, List.getLast?_concat]
        rfl
      · have hwrites : S.writes k [c] = [] := List.filter_cons_of_neg (by simpa using hk)
        rw [S.read_apply_of_ne _ c k hk, hwrites, List.append_nil, ih]

theorem read_eq_of_writes {s s' : σ} {cs cs' : List γ} {k : κ} (hs : S.read s k = S.read s' k)
    (hwrites : S.writes k cs = S.writes k cs') :
    S.read (S.applyAll s cs) k = S.read (S.applyAll s' cs') k := by
  rw [read_applyAll, read_applyAll, hwrites, hs]

/-- A log that has been applied may be applied again. -/
theorem read_applyAll_again {s s' : σ} {cs : List γ} {k : κ}
    (hs : S.read s' k = S.read (S.applyAll s cs) k) :
    S.read (S.applyAll s' cs) k = S.read (S.applyAll s cs) k := by
  rw [read_applyAll, hs, read_applyAll]
  cases (S.writes k cs).getLast? <;> rfl

end KeyedStore
