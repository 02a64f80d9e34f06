import Mathlib.Tactic.DeriveCountable
import NomadRs.LineTable
import NomadRs.RaftLog

/-!
# Log records as text

Everything a log entry or a snapshot holds is countable, so that a codec for them can be had
from a table of texts. `SerdeJson.sample` writes the two entries and the snapshot of the replays
below as they stand in the files.
-/

open LineFile

namespace NomadRs

instance countableHashMap {κ α : Type} [Countable κ] [Countable α] : Countable (HashMap κ α) :=
  Function.Injective.countable (f := AList.entries) fun _ _ h => AList.ext h

instance countableChar : Countable Char :=
  Function.Injective.countable (f := Char.toNat) fun _ _ h => Char.toNat_inj.1 h

instance countableString : Countable String :=
  Function.Injective.countable (f := String.toList) fun _ _ h => String.toList_injective h

instance countableUInt64 : Countable UInt64 :=
  Function.Injective.countable (f := UInt64.toNat) fun _ _ h => UInt64.toNat_inj.1 h

deriving instance Countable for Constraint, Affinity, SpreadTarget, Spread, Resources, Task,
  TaskGroup, Job, NodeStatus, SchedulingEligibility, Node, DesiredStatus, ClientStatus,
  Allocation, EvalTrigger, EvalStatus, Evaluation, StateStore, Command, RaftLogEntry, RaftSnapshot

/-- The entry at an index at which a job is taken off. -/
def webEntry (index : UInt64) : RaftLogEntry :=
  { index, term := 1, timestamp := 0, command := .deregisterJob "web" }

def firstText : Bytes :=
  asciiBytes "\x7b\"index\":1,\"term\":1,\"timestamp\":\"1970-01-01T00:00:00Z\"," ++
    asciiBytes "\"command\":\x7b\"DeregisterJob\":\"web\"\x7d\x7d"

def secondText : Bytes :=
  asciiBytes "\x7b\"index\":2,\"term\":1,\"timestamp\":\"1970-01-01T00:00:00Z\"," ++
    asciiBytes "\"command\":\x7b\"DeregisterJob\":\"web\"\x7d\x7d"

def emptySnapshot : RaftSnapshot :=
  { state := .new, lastIncludedIndex := 2, lastIncludedTerm := 1 }

def snapshotText : Bytes :=
  asciiBytes "\x7b\"state\":\x7b\"jobs\":\x7b\x7d,\"nodes\":\x7b\x7d,\"allocs\":\x7b\x7d," ++
    asciiBytes "\"evals\":\x7b\x7d\x7d,\"last_included_index\":2,\"last_included_term\":1\x7d"

theorem separable_entryTexts : Separable [firstText, secondText] := by decide +kernel

theorem separable_snapshotText : Separable [snapshotText] := by decide +kernel

open Classical in
noncomputable def entryTable : TextTable RaftLogEntry where
  text entry :=
    if entry = webEntry 1 then some firstText
    else if entry = webEntry 2 then some secondText else none
  texts := [firstText, secondText]
  mem_texts entry t h := by
    split_ifs at h <;> cases h <;> simp
  text_inj a b t ha hb := by
    have hne : firstText ≠ secondText := by decide +kernel
    split_ifs at ha hb <;> simp_all
  separable := separable_entryTexts

open Classical in
noncomputable def snapshotTable : TextTable RaftSnapshot where
  text snapshot := if snapshot = emptySnapshot then some snapshotText else none
  texts := [snapshotText]
  mem_texts snapshot t h := by
    split_ifs at h
    cases h
    simp
  text_inj a b t ha hb := by
    split_ifs at ha hb
    simp_all
  separable := separable_snapshotText

@[reducible] noncomputable def SerdeJson.sample : SerdeJson where
  entry := entryTable.codec (.serialize "expected value")
  snapshot := (snapshotTable.codec (.serialize "expected value")).toCodec

end NomadRs
