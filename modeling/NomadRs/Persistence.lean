import NomadRs.RaftLogText

/-!
# The store on disk

`StateStore.save` writes the whole store into one file and `StateStore.load` reads it back and
checks every entity. No check rejects a store that commands have built, so what was saved can be
loaded (`load_save`). But `load` does not compare the keys of the maps with the entities below
them, so it lets in stores that no commands build: `load_wellFormed_iff`.
-/

open LineFile FileSystem

namespace NomadRs

/-- `serde_json` at the type of the stores; decoding lays the tables out anew. -/
structure StoreJson where
  toVec : StateStore → Except String Bytes
  fromSlice : Bytes → Except String StateStore
  fromSlice_toVec : ∀ s data, toVec s = .ok data →
    ∃ s', fromSlice data = .ok s' ∧ s.Relayout s'

def readFile {φ : Type} (files : φ → Option Bytes) (path : φ) : Result Bytes :=
  match files path with
  | none => .error (.io .other)
  | some bytes => .ok bytes

theorem readFile_eq_ok {φ : Type} {files : φ → Option Bytes} {path : φ} {bytes : Bytes} :
    readFile files path = .ok bytes ↔ files path = some bytes := by
  cases h : files path <;> simp [readFile, h]

/-- One of the four loops of `load`. -/
def validateEach {α : Type} (validate : α → Result Unit) : List α → Result Unit
  | [] => .ok ()
  | a :: as => do
    validate a
    validateEach validate as

theorem validateEach_eq_ok {α : Type} {validate : α → Result Unit} {as : List α} {u : Unit} :
    validateEach validate as = .ok u ↔ ∀ a ∈ as, validate a = .ok () := by
  induction as with
  | nil => simp [validateEach]
  | cons a as ih =>
      rw [validateEach, Result.bind_eq_ok, List.forall_mem_cons]
      simp only [ih]
      exact ⟨fun ⟨_, ha, has⟩ => ⟨ha, has⟩, fun ⟨ha, has⟩ => ⟨_, ha, has⟩⟩

namespace StateStore

section Files
variable (json : StoreJson) {φ σ : Type} [DecidableEq φ]

def save (self : StateStore) (path : φ) : FileM φ σ Error Unit := do
  let bytes ← FileM.ofExcept ((json.toVec self).mapError .serialize)
  rewrite path [bytes]

omit [DecidableEq φ] in
def load (files : φ → Option Bytes) (path : φ) : Result StateStore := do
  let bytes ← readFile files path
  let store ← (json.fromSlice bytes).mapError .serialize
  validateEach Job.validate store.jobs.values
  validateEach Node.validate store.nodes.values
  validateEach Allocation.validate store.allocs.values
  validateEach Evaluation.validate store.evals.values
  return store

end Files

/-! ## The two halves of the invariant -/

structure Valid (s : StateStore) : Prop where
  jobs : ∀ job ∈ s.jobs.values, job.validate = .ok ()
  nodes : ∀ node ∈ s.nodes.values, node.validate = .ok ()
  allocs : ∀ alloc ∈ s.allocs.values, alloc.validate = .ok ()
  evals : ∀ eval ∈ s.evals.values, eval.validate = .ok ()

structure Keyed (s : StateStore) : Prop where
  jobs : ∀ k job, s.jobs.lookup k = some job → job.name = k
  nodes : ∀ k node, s.nodes.lookup k = some node → node.id = k
  allocs : ∀ k alloc, s.allocs.lookup k = some alloc → alloc.id = k
  evals : ∀ k eval, s.evals.lookup k = some eval → eval.id = k

theorem wellFormed_iff {s : StateStore} : s.WellFormed ↔ s.Keyed ∧ s.Valid := by
  constructor
  · intro h
    refine ⟨⟨fun k a ha => (h.jobs k a ha).1, fun k a ha => (h.nodes k a ha).1,
      fun k a ha => (h.allocs k a ha).1, fun k a ha => (h.evals k a ha).1⟩, ?_, ?_, ?_, ?_⟩ <;>
      intro a ha <;> obtain ⟨k, hk⟩ := HashMap.mem_values_iff.1 ha
    · exact (h.jobs k a hk).2
    · exact (h.nodes k a hk).2
    · exact (h.allocs k a hk).2
    · exact (h.evals k a hk).2
  · rintro ⟨hk, hv⟩
    exact ⟨fun k a ha => ⟨hk.jobs k a ha, hv.jobs a (HashMap.mem_values_of_lookup ha)⟩,
      fun k a ha => ⟨hk.nodes k a ha, hv.nodes a (HashMap.mem_values_of_lookup ha)⟩,
      fun k a ha => ⟨hk.allocs k a ha, hv.allocs a (HashMap.mem_values_of_lookup ha)⟩,
      fun k a ha => ⟨hk.evals k a ha, hv.evals a (HashMap.mem_values_of_lookup ha)⟩⟩

section Files
variable {json : StoreJson} {φ σ : Type} {files : φ → Option Bytes} {path : φ} {s : StateStore}

/-- `load` accepts what decodes and passes the checks, whatever the keys are. -/
theorem load_eq_ok_iff : load json files path = .ok s ↔
    ∃ bytes, files path = some bytes ∧ json.fromSlice bytes = .ok s ∧ s.Valid := by
  simp only [load, Result.bind_eq_ok, readFile_eq_ok, mapError_eq_ok, validateEach_eq_ok]
  constructor
  · rintro ⟨bytes, hfile, store, hdecode, _, hj, _, hn, _, ha, _, he, hret⟩
    cases hret
    exact ⟨bytes, hfile, hdecode, hj, hn, ha, he⟩
  · rintro ⟨bytes, hfile, hdecode, hv⟩
    exact ⟨bytes, hfile, s, hdecode, (), hv.jobs, (), hv.nodes, (), hv.allocs, (), hv.evals,
      rfl⟩

variable [DecidableEq φ]

theorem save_eq_ok {w w' : World φ σ} (h : (s.save json path).run w = (.ok (), w')) :
    ∃ bytes, json.toVec s = .ok bytes ∧ w'.files path = some bytes := by
  unfold save at h
  cases hjson : json.toVec s with
  | error e =>
      rw [hjson] at h
      cases h
  | ok bytes =>
      rw [hjson] at h
      change (rewrite path [bytes] : FileM φ σ Error Unit).run w = _ at h
      rcases rewrite_cases (ε := Error) path [bytes] w with ⟨_, hrun⟩ | ⟨n, w₁, _, hrun, _, hfiles⟩
      · rw [hrun] at h
        cases h
      · rw [hrun, Prod.mk.injEq] at h
        obtain ⟨hout, rfl⟩ := h
        refine ⟨bytes, rfl, ?_⟩
        rw [hfiles, Function.update_self, List.take_of_length_le]
        · simp
        · by_contra hlt
          rw [outcome, if_neg hlt] at hout
          cases hout

theorem exists_save {bytes : Bytes} (hjson : json.toVec s = .ok bytes) (path : φ)
    (files : φ → Option Bytes) (mem : σ) :
    ∃ w', (s.save json path).run ⟨files, mem, bytes.length + 1⟩ = (.ok (), w') := by
  rw [save, hjson]
  rcases rewrite_cases (ε := Error) path [bytes] ⟨files, mem, bytes.length + 1⟩ with
    ⟨hzero, _⟩ | ⟨n, w', hn, hrun, _⟩
  · exact absurd hzero (Nat.succ_ne_zero _)
  · have hlen : bytes.length = n := Nat.succ.inj hn
    exact ⟨w', hrun.trans (congrArg (·, w') (if_pos (by simp [hlen])))⟩

/-- A store that commands have built is well formed, and what `save` writes of it `load` gives
back with the same contents. -/
theorem load_save {fsm : Fsm} (h : storeSystem.Reachable fsm) (json : StoreJson) (path : φ) :
    fsm.state.WellFormed ∧ ∀ w w' : World φ σ,
      (fsm.state.save json path).run w = (.ok (), w') →
        ∃ s, load json w'.files path = .ok s ∧ fsm.state.Relayout s := by
  have hwf := fsm.wellFormed_of_reachable h
  refine ⟨hwf, fun w w' hsave => ?_⟩
  obtain ⟨bytes, hjson, hfile⟩ := save_eq_ok hsave
  obtain ⟨s, hdecode, hr⟩ := json.fromSlice_toVec _ _ hjson
  exact ⟨s, load_eq_ok_iff.2 ⟨bytes, hfile, hdecode, (wellFormed_iff.1 (hwf.relayout hr)).2⟩, hr⟩

omit [DecidableEq φ] in
/-- A loaded store is well formed exactly when the keys in the file are right. -/
theorem load_wellFormed_iff (json : StoreJson) (files : φ → Option Bytes) (path : φ) :
    (∀ s, load json files path = .ok s → s.WellFormed ∧ (s.listNodes.map Node.id).Nodup ∧
      (s.listAllocs.map Allocation.id).Nodup) ↔
    ∀ bytes s, files path = some bytes → json.fromSlice bytes = .ok s → s.Valid → s.Keyed := by
  constructor
  · intro h bytes s hfile hdecode hvalid
    exact (wellFormed_iff.1 (h s (load_eq_ok_iff.2 ⟨bytes, hfile, hdecode, hvalid⟩)).1).1
  · intro h s hload
    obtain ⟨bytes, hfile, hdecode, hvalid⟩ := load_eq_ok_iff.1 hload
    have hwf := wellFormed_iff.2 ⟨h bytes s hfile hdecode hvalid, hvalid⟩
    exact ⟨hwf, hwf.nodup_nodeIds, hwf.nodup_allocIds⟩

end Files
end StateStore

/-! ## A file with one node -/

open Classical in
/-- `serde_json` at one store; what it does with others is left out. -/
noncomputable def StoreJson.only (store : StateStore) (text : Bytes) : StoreJson where
  toVec s := if s = store then .ok text else .error "other store"
  fromSlice data := if data = text then .ok store else .error "expected value"
  fromSlice_toVec s data h := by
    split_ifs at h with hs
    cases h
    exact ⟨store, if_pos rfl, hs ▸ ⟨.refl _, .refl _, .refl _, .refl _⟩⟩

theorem StoreJson.toVec_only (store : StateStore) (text : Bytes) :
    (StoreJson.only store text).toVec store = .ok text := if_pos rfl

theorem StoreJson.fromSlice_only (store : StateStore) (text : Bytes) :
    (StoreJson.only store text).fromSlice text = .ok store := if_pos rfl

def nodeUnder (key : NodeId) : StateStore :=
  { nodes := (∅ : HashMap NodeId Node).insert key oneNode }

def nodeText (key : NodeId) : Bytes :=
  asciiBytes ("\x7b\"jobs\":\x7b\x7d,\"nodes\":\x7b\"" ++ key) ++
    asciiBytes "\":\x7b\"id\":\"node-1\",\"name\":\"node-1\",\"datacenter\":\"dc1\"," ++
    asciiBytes "\"node_class\":\"\",\"resources\":\x7b\"cpu_mhz\":1000,\"memory_mb\":1024," ++
    asciiBytes "\"network_mbps\":100\x7d,\"status\":\"Ready\",\"eligibility\":\"Eligible\"," ++
    asciiBytes "\"draining\":false,\"attributes\":\x7b\x7d,\"drivers\":\x7b\x7d\x7d\x7d," ++
    asciiBytes "\"allocs\":\x7b\x7d,\"evals\":\x7b\x7d\x7d"

noncomputable def nodeJson (key : NodeId) : StoreJson := .only (nodeUnder key) (nodeText key)

namespace StateStore

theorem load_save_oneNode : ∃ w' s,
    ((nodeUnder "node-1").save (nodeJson "node-1") ()).run
      ⟨fun _ : Unit => none, (), (nodeText "node-1").length + 1⟩ = (.ok (), w') ∧
    load (nodeJson "node-1") w'.files () = .ok s ∧ (nodeUnder "node-1").Relayout s := by
  have hreach : storeSystem.Reachable ⟨nodeUnder "node-1"⟩ :=
    (System.ReachableVia.start (S := storeSystem) rfl).next (.apply .new (.upsertNode oneNode))
      trivial
  obtain ⟨w', hsave⟩ :=
    exists_save (StoreJson.toVec_only (nodeUnder "node-1") _) () (fun _ : Unit => none) ()
  obtain ⟨s, hload, hr⟩ := (load_save hreach (nodeJson "node-1") ()).2 _ w' hsave
  exact ⟨w', s, hsave, hload, hr⟩

/-- A node under the key of another is let in. -/
theorem load_admits_misplaced : ¬ ∀ (json : StoreJson) (files : Unit → Option Bytes)
    (s : StateStore), load json files () = .ok s → s.WellFormed := by
  intro h
  have hwf := h (nodeJson "node-2") (fun _ => some (nodeText "node-2")) (nodeUnder "node-2")
    (load_eq_ok_iff.2 ⟨_, rfl, StoreJson.fromSlice_only _ _, by simp [nodeUnder], ?_,
      by simp [nodeUnder], by simp [nodeUnder]⟩)
  · exact absurd (hwf.nodes "node-2" oneNode (AList.lookup_insert _)).1 (by decide)
  · intro node hnode
    rw [nodeUnder, HashMap.values_insert] at hnode
    rw [List.mem_singleton.1 hnode]
    decide

end StateStore
end NomadRs
