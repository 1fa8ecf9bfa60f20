import Siglog.Monitor.Alone
import Siglog.Monitor.Content
import Siglog.Witness.Consistency

/-! The guarantee of the content-validating witness. Whatever a log answers, and wherever
the requests of several processes are cut off, a cosignature that is returned is for the root
of entries that are a Conda log, and the rows of each log are those of its entries up to the
persisted size. -/

namespace Siglog.Monitor

open Concurrent (Prog ProcSys Processes)
open Merkle (InclusionVerifier LawfulInclusionVerifier)
open Note (Checkpoint CheckpointSignature CheckpointSigner CosignedCheckpoint NoteCrypto)
open Rfc (mth verifyInclusion_iff)
open Storage (asI64 asU64)
open Text (Str)
open Text.Base64 (DecodeErrors)
open Witness (AddCheckpointRequest LogConfig StateRow WitnessedState WitnessStateStore.getOrInit
  verifyConsistency
  verifyConsistency_extend)

variable {SK VK H : Type} [NoteCrypto SK VK] [DecodeErrors] [Sha256Hash H] [EntryJson] [Hasher]
  [DecidableEq H]
variable [InclusionVerifier H] [LawfulInclusionVerifier H]
variable {monitors : ℕ → MonitoringWitness SK VK} {i : ℕ} {s : MonitorSystem H}
variable {origin : Str} {memory : CondaMonitor} {part : LogPart H} {cp : Checkpoint H}
  {state : WitnessedState H}
variable {request : AddCheckpointRequest H} {log added : List Bytes} {old new : List CondaEntry}

/-! ### The transaction -/

omit [DecodeErrors] [InclusionVerifier H] [LawfulInclusionVerifier H] in
/-- With the entries that were admitted, the root of the checkpoint is that of all entries. -/
theorem Admitted.root (hinj : Function.Injective2 (hashChildren (H := H))) {row : StateRow H}
    {content : List ContentRow}
    (hbacked : Backed origin row content log old) (h : Admitted cp log added old new memory)
    (hsize : log.length + added.length = cp.size) (hbound : cp.size ≤ i64Max) {proof : List H}
    (hproof : verifyConsistency log.length cp.size row.rootHash cp.rootHash proof = .ok ()) :
    cp.rootHash = mth ((log ++ added).map hashLeaf) := by
  have hlen : ((log ++ added).map (hashLeaf (H := H))).length = cp.size := by simp [hsize]
  have htake : ((log ++ added).map (hashLeaf (H := H))).take log.length = log.map hashLeaf := by
    simp
  rw [hbacked.root, ← htake, ← hlen] at hproof
  refine verifyConsistency_extend hinj (by omega) (hlen.le.trans hbound) ?_ hproof
  intro j x hj hlt hx
  rw [Nat.zero_add, List.getElem?_map, List.getElem?_append_right hj] at hx
  obtain ⟨data, hdata, rfl⟩ := Option.map_eq_some_iff.mp hx
  obtain ⟨proof, hproof⟩ := h.included _ data hdata
  obtain ⟨-, hroot⟩ := verifyInclusion_iff.mp hproof
  rw [Nat.add_sub_cancel' hj] at hroot
  exact ⟨_, hlen ▸ hroot⟩

/-- The transaction sees the rows of the log as they are for the checkpoint. -/
def Grown (i : ℕ) (cp : Checkpoint H) (checkpoint : Str) (part : LogPart H) (s : MonitorSystem H) :
    Prop :=
  ∃ memory content log entries, Holds i cp.origin.str memory { part with content := content } s ∧
    Backed cp.origin.str ⟨cp.size, cp.rootHash, checkpoint⟩ content log entries

theorem runs_admitGrowth (hinj : Function.Injective2 (hashChildren (H := H)))
    (hkey : Function.Injective hashKey) (monitor : MonitoringWitness SK VK) {row : StateRow H}
    (hbacked : Backed cp.origin.str row part.content log old)
    (hsize : state.size = log.length) (hgrowth : state.size < cp.size) (hbound : cp.size ≤ i64Max)
    {proof : List H}
    (hproof : verifyConsistency log.length cp.size row.rootHash cp.rootHash proof = .ok ())
    (checkpoint : Str) (hstaged : ∀ which, Staged which (memory.get which) old [])
    (hs : Holds i cp.origin.str memory part s) :
    Runs monitors i (admitGrowth monitor cp state) (fun _ s => Grown i cp checkpoint part s) s := by
  have hnone : Admitted cp log [] old [] memory := by
    refine ⟨?_, hstaged, by simp⟩
    rw [List.append_nil, List.append_nil]
    exact hbacked.log
  rw [admitGrowth]
  split
  · trivial
  refine runs_bind (runs_client (V := fun _ => True) (Prog.returns_any _ fun _ _ _ => trivial) _ hs)
    ?_
  rintro client s ⟨hs, -⟩
  have hcount : (cp.size + 255) / 256 = log.length / 256 +
      ((cp.size + 255) / 256 - log.length / 256) := by omega
  have hfirst : max log.length (min (log.length / 256 * 256) cp.size) = log.length +
      ([] : List Bytes).length := by
    rw [List.length_nil]
    omega
  rw [bundleRange, hsize]
  refine runs_bind
    (runs_admitBundles hbacked.log _ client _ [] s hcount hfirst ⟨[], memory, hs, hnone⟩) ?_
  rintro _ s ⟨added, hadded, new, memory, hs, hadmitted⟩
  have hall : log.length + added.length = cp.size := by omega
  refine runs_weaken ?_ (runs_commitEntries hkey hadmitted.isLog hadmitted.staged hbacked.rows hs)
  rintro _ s ⟨memory, content, hrows, hs⟩
  refine ⟨memory, content, log ++ added, old ++ new, hs, ?_, ?_,
    hadmitted.root hinj hbacked hall hbound hproof, hadmitted.isLog, hrows⟩
  · simp [hall]
  · simpa [hall] using hbound

/-- What a request has when it asks for the lock: a state that was read, from which the
checkpoint is consistent. -/
structure Checked (request : AddCheckpointRequest H) (cosigned : CosignedCheckpoint H)
    (state : WitnessedState H) : Prop where
  parsed : CosignedCheckpoint.fromText request.checkpoint = .ok cosigned
  read : ReadState cosigned.checkpoint.origin.str state
  bound : cosigned.checkpoint.size ≤ i64Max
  le : state.size ≤ cosigned.checkpoint.size
  consistent : verifyConsistency state.size cosigned.checkpoint.size state.rootHash
    cosigned.checkpoint.rootHash request.proof =
    .ok ()

variable {cosigned : CosignedCheckpoint H}

/-- The rows for the checkpoint, whether it has more entries or none. -/
theorem runs_growth (hinj : Function.Injective2 (hashChildren (H := H)))
    (hkey : Function.Injective hashKey)
    (hchecked : Checked request cosigned state) {row : StateRow H}
    (hat : LockedAt i state memory part row s) {α : Type}
    {f : Unit → MonitorProg H α} {P : α → MonitorSystem H → Prop}
    (hf : ∀ s, Grown i cosigned.checkpoint request.checkpoint part s → Runs monitors i (f ()) P s) :
    Runs monitors i
      (rollbackEntries.bind fun _ => (loadState cosigned.checkpoint.origin.str).bind fun _ =>
      if state.size < cosigned.checkpoint.size
        then (admitGrowth (monitors i) cosigned.checkpoint state).bind f else f ()) P s := by
  obtain ⟨hs, hrow, hsize, hroot, hgood⟩ := hat
  obtain ⟨horigin, -⟩ := hchecked.read
  rw [horigin] at hs hgood
  rw [PartGood, hrow] at hgood
  obtain ⟨log, old, hbacked⟩ := hgood
  have hstate : state.size = log.length := by
    have := hbacked.size
    omega
  have hproof := hchecked.consistent
  rw [← hroot] at hproof
  refine runs_bind (runs_rollbackEntries hs) ?_
  rintro _ s ⟨memory, hs, hpending⟩
  refine runs_bind (runs_loadState hkey hbacked.log hbacked.bound hbacked.rows hpending hs) ?_
  rintro _ s ⟨memory, hs, hstaged⟩
  split_ifs with hgrowth
  · rw [hstate] at hproof
    exact runs_bind (runs_admitGrowth hinj hkey (monitors i) hbacked hstate hgrowth hchecked.bound
      hproof request.checkpoint
      hstaged hs) fun _ => hf
  · have hsame : state.size = cosigned.checkpoint.size := by
      have := hchecked.le
      omega
    rw [hsame, verifyConsistency_same] at hproof
    refine hf s ⟨memory, part.content, log, old, hs, ?_, hbacked.bound, hproof.2 ▸ hbacked.root,
      hbacked.log, hbacked.rows⟩
    change ((cosigned.checkpoint.size : ℕ) : ℤ) = log.length
    omega

omit [DecidableEq H] [InclusionVerifier H] [LawfulInclusionVerifier H] in
theorem runs_now (s : MonitorSystem H) : Runs monitors i
    (Prog.call (MonitorOp.store .now) : Prog (MonitorOp H) (MonitorOp.Answer H) (Fault MonitorError)
      _) (fun _ _ => True) s := by
  refine runs_call (J := fun _ => True) (fun _ _ _ _ => trivial) ?_ trivial
  intro s _ hi r s' he
  cases he with
  | store hexec =>
    cases hexec
    exact ⟨hi, fun j _ => .refl j s, trivial⟩

omit [DecidableEq H] [InclusionVerifier H] [LawfulInclusionVerifier H] in
theorem runs_rollback (s : MonitorSystem H) :
    Runs monitors i (perform databaseError .rollback rfl) (fun _ _ => True) s := by
  refine runs_perform (J := fun _ => True) (fun _ _ _ _ => trivial) ?_ trivial
  intro s _ hi r s' he
  cases he with
  | rollback => exact ⟨hi.clear _, others_setTxn s i none, fun _ _ => trivial⟩

omit [DecidableEq H] [InclusionVerifier H] [LawfulInclusionVerifier H] in
theorem runs_drop (s : MonitorSystem H) : Runs monitors i
    (Prog.call MonitorOp.drop : Prog (MonitorOp H) (MonitorOp.Answer H) (Fault MonitorError) Unit)
      (fun _ _ => True) s := by
  refine runs_call (J := fun _ => True) (fun _ _ _ _ => trivial) ?_ trivial
  intro s _ hi r s' he
  cases he with
  | drop => exact ⟨hi.clear _, others_setTxn s i none, trivial⟩

omit [DecidableEq H] [InclusionVerifier H] [LawfulInclusionVerifier H] in
/-- Outside of a transaction the indices are rolled back, too. -/
theorem runs_rollbackMemory (s : MonitorSystem H) :
    Runs monitors i rollbackEntries (fun _ _ => True) s := by
  have hindex : ∀ (which : CondaIndex) (o : IndexOp) (s : MonitorSystem H),
      Runs monitors i (index which o) (fun _ _ => True) s := by
    intro which o s
    refine runs_call (J := fun _ => True) (fun _ _ _ _ => trivial) ?_ trivial
    intro s _ hi r s' he
    cases he with
    | index =>
      obtain ⟨hinv, hothers⟩ :=
        hi.setMemory (i := i) ((s.memory i).set which (((s.memory i).get which).answer o).2)
      exact ⟨hinv, hothers, trivial⟩
  exact runs_bind (hindex .sha256 .rollback s) fun _ s _ => hindex .filename .rollback s

/-- What is committed is good, and what is signed is the checkpoint. -/
theorem runs_updateLocked (hinj : Function.Injective2 (hashChildren (H := H)))
    (hkey : Function.Injective hashKey)
    (hchecked : Checked request cosigned state) {row : StateRow H}
    (hat : LockedAt i state memory part row s) :
    Runs monitors i (updateLocked (monitors i) request cosigned.checkpoint state)
      (fun signature _ => Vouched (monitors i) request signature) s := by
  refine runs_growth hinj hkey hchecked hat ?_
  rintro s ⟨memory, content, log, entries, hs, hbacked⟩
  refine runs_bind (runs_mapErr (runs_update hchecked.read.origin _ _ _ hs))
    fun updated s hupdated => ?_
  split_ifs with h
  · have hgood :
        PartGood cosigned.checkpoint.origin.str (LogPart.write { part with content := content }
        (.state cosigned.checkpoint.origin.str
          ⟨cosigned.checkpoint.size, cosigned.checkpoint.rootHash, request.checkpoint⟩)) :=
          ⟨log, entries, hbacked⟩
    refine runs_bind (runs_commit hgood (hupdated h)) fun _ s _ => ?_
    refine runs_bind (runs_now s) fun now s _ => ?_
    refine runs_mapErr (runs_ofExcept fun signature hsignature => ?_)
    cases now with
    | error e => cases hsignature
    | ok timestamp =>
      obtain rfl := Except.ok.inj hsignature
      refine ⟨cosigned, hchecked.parsed, ⟨timestamp, rfl⟩, log, entries, hbacked.log, ?_,
        hbacked.root⟩
      exact Int.ofNat.inj hbacked.size.symm
  · trivial

/-! ### The request -/

omit [EntryJson] [Hasher] [DecidableEq H] [InclusionVerifier H] [LawfulInclusionVerifier H] in
theorem checkRequest_eq_ok {monitor : MonitoringWitness SK VK}
    (h : checkRequest monitor request = .ok cosigned) :
    CosignedCheckpoint.fromText request.checkpoint = .ok cosigned ∧
    cosigned.checkpoint.size ≤ i64Max ∧
      request.oldSize ≤ cosigned.checkpoint.size := by
  rw [checkRequest] at h
  cases hparse : CosignedCheckpoint.fromText (H := H) request.checkpoint with
  | error e =>
    rw [hparse] at h
    cases h
  | ok checkpoint =>
    rw [hparse] at h
    dsimp only at h
    split at h
    · cases h
    · split at h
      · cases h
      · split_ifs at h with hsizes
        obtain rfl := Except.ok.inj h
        exact ⟨rfl, by omega, by omega⟩

omit [InclusionVerifier H] [LawfulInclusionVerifier H] in
theorem runs_admission (monitor : MonitoringWitness SK VK) (request : AddCheckpointRequest H)
    (s : MonitorSystem H) :
    Runs monitors i (onDatabase (admission monitor request)) (fun x _ => Checked request x.1 x.2)
      s := by
  rw [admission]
  simp only [Prog.bind_eq, onDatabase_bind, onDatabase_mapErr, onDatabase_ofExcept]
  refine runs_bind
    (runs_mapErr (runs_ofExcept (P := fun cosigned _ => checkRequest monitor request = .ok cosigned)
    fun cosigned h => h)) fun cosigned s hrequest => ?_
  obtain ⟨hparse, hbound, hle⟩ := checkRequest_eq_ok hrequest
  refine runs_bind (runs_mapErr (runs_getOrInit _ s)) fun state s hread => ?_
  refine runs_bind (runs_ofExcept (P := fun _ _ => Checked request cosigned state) fun _ h => ?_)
    fun _ s h => h
  obtain ⟨hold, hproof⟩ := monitor_checkState.mp h
  exact ⟨hparse, hread, hbound, hold ▸ hle, hproof⟩

theorem runs_addLocked (hinj : Function.Injective2 (hashChildren (H := H)))
    (hkey : Function.Injective hashKey) (request : AddCheckpointRequest H) (s : MonitorSystem H) :
    Runs monitors i (addLocked (monitors i) request)
      (fun signature _ => Vouched (monitors i) request signature) s := by
  rw [addLocked]
  refine runs_bind (runs_admission (monitors i) request s) ?_
  rintro ⟨cosigned, state⟩ s hchecked
  refine runs_bind (runs_begin s) fun _ s hs => ?_
  refine runs_bind (runs_lock hchecked.read.bound hs) fun locked s hlocked => ?_
  split_ifs with h
  · obtain ⟨memory, part, row, hat⟩ := hlocked h
    exact runs_updateLocked hinj hkey hchecked hat
  · refine runs_bind (runs_rollback s) fun _ s _ => ?_
    exact runs_bind (runs_mapErr (runs_getOrInit _ s)) fun _ _ _ => trivial

/-- A request that succeeds has its cosignature vouched for. -/
theorem runs_addCheckpoint (hinj : Function.Injective2 (hashChildren (H := H)))
    (hkey : Function.Injective hashKey) (request : AddCheckpointRequest H) (s : MonitorSystem H) :
    Runs monitors i (addCheckpoint (monitors i) request)
      (fun signature _ => Vouched (monitors i) request signature) s := by
  rw [addCheckpoint]
  refine runs_bind (runs_attempt (runs_addLocked hinj hkey request s)) fun result s hresult => ?_
  refine runs_bind (runs_drop s) fun _ s _ => ?_
  match result with
  | .ok signature => exact hresult
  | .error (.err e) => exact runs_bind (runs_rollbackMemory s) fun _ _ _ => trivial
  | .error .panic => trivial

/-! ### All runs -/

/-- Several processes share one database. Each handles one request at a time. -/
def monitorSys (monitors : ℕ → MonitoringWitness SK VK) :
    ProcSys ℕ (MonitorSystem H) (AddCheckpointRequest H) (MonitorOp H)
    (MonitorOp.Answer H) (Fault MonitorError) CheckpointSignature where
  env := Env
  start i request p := p = addCheckpoint (monitors i) request
  exec := Exec
  finish i request x s s' := s' = { s with answers := s.answers ++ [⟨i, request, x⟩] }
  drop := Dropped

def monitorProof (hinj : Function.Injective2 (hashChildren (H := H)))
    (hkey : Function.Injective hashKey)
    (monitors : ℕ → MonitoringWitness SK VK) : ProcSys.Proof (monitorSys (H := H) monitors) where
  Inv := Inv monitors
  rely := Rely
  Out i request x _ := ∀ signature, x = .ok signature → Vouched (monitors i) request signature
  refl := Rely.refl
  trans := Rely.trans
  stable _ _ _ _ _ h _ := h
  env _ _ hi he := hi.env he
  start i request p s hp _ := by
    obtain rfl : p = addCheckpoint (monitors i) request := hp
    refine Prog.safe_weaken ?_ (runs_addCheckpoint hinj hkey request s)
    rintro x s h signature rfl
    exact h
  finish i request x s s' hi hx hs' := by
    obtain rfl : s' = _ := hs'
    refine ⟨⟨hi.parts, hi.apart, hi.covered, hi.orphans, fun a ha => ?_⟩,
      fun j _ => ⟨rfl, rfl, fun _ _ _ _ => rfl⟩⟩
    rcases List.mem_append.mp ha with ha | ha
    · exact hi.answers a ha
    · obtain rfl := List.mem_singleton.mp ha
      exact hx
  drop _ _ _ hi hd := hi.dropped hd

/-- In every run of any number of processes, with any answers of the logs: a cosignature is
for the root of entries that are a Conda log, and the rows of each log are those of the
entries up to its persisted size. -/
theorem reachable_content (hinj : Function.Injective2 (hashChildren (H := H)))
    (hkey : Function.Injective hashKey) (monitors : ℕ → MonitoringWitness SK VK)
    {p : Processes ℕ (MonitorSystem H) (AddCheckpointRequest H) (MonitorOp H)
      (MonitorOp.Answer H) (Fault MonitorError) CheckpointSignature}
      (h : (monitorSys monitors).Reachable .init p) :
    (∀ a ∈ p.shared.answers, ∀ signature, a.answer = .ok signature →
      Vouched (monitors a.process) a.request signature) ∧
      ∀ origin, PartGood origin (p.shared.db.part origin) := by
  have hinv := (monitorProof hinj hkey monitors).reachable_inv Inv.init h
  exact ⟨hinv.answers, hinv.parts⟩

end Siglog.Monitor

/-! ### One entry -/

namespace Siglog.Monitor

open Concurrent (ProcSys Processes)
open Concurrent.Sys (runAlone)
open Merkle (InclusionVerifier LawfulInclusionVerifier)
open Note (Bytes64 Checkpoint CosignedCheckpoint StartKey startSigner)
open Rfc (VerifyInclusion)
open Text (Str)
open Text.Base64 (DecodeErrors)
open Witness (AddCheckpointRequest LogConfig)

/-- Hashes as terms, one of which has bytes that stand for the leaf of the entry. -/
def LeafHash : Type := FreeHash
  deriving DecidableEq

def leafBytes : Bytes32 := StartKey.start 32 [7]

local instance leafSha256 : Sha256Hash LeafHash where
  fromBytes b := if b = leafBytes then FreeHash.leaf [7] else FreeHash.bytes b
  asBytes h :=
    match (h : FreeHash) with
    | .bytes b => b
    | _ => leafBytes
  hashLeaf := FreeHash.leaf
  hashChildren := FreeHash.node

attribute [local instance] Merkle.rootVerifier Merkle.rootVerifier_lawful Text.Base64.plainErrors

/-- An entry is the name of a package. -/
local instance nameJson : EntryJson :=
  ⟨fun data => .ok ⟨data.map fun b => Char.ofNat b.toNat, data.map fun b => Char.ofNat b.toNat⟩⟩

local instance sameHasher : Hasher := ⟨id⟩

def oneMonitor : MonitoringWitness StartKey StartKey :=
  ⟨startSigner,
    [⟨"log".toList, some "https://log/".toList, .mk, startSigner.keyId, startSigner.name⟩]⟩

def oneEntry : Checkpoint LeafHash where
  origin := Note.logOrigin
  size := 1
  rootHash := hashLeaf [7]

def entryRequest : AddCheckpointRequest LeafHash :=
  ⟨0, [], (CosignedCheckpoint.new oneEntry startSigner).toText⟩

/-- The log has one bundle. -/
def oneBundle (url : Str) : Except String Bytes :=
  if url = "https://log/tile/entries/000.p/1".toList then .ok [0, 1, 7] else .error "not found"

/-- A request that is handled alone. -/
def handledOne : Except (Fault MonitorError) Note.CheckpointSignature × Solo LeafHash :=
  runAlone (Solo.answer 0 oneBundle) (addCheckpoint oneMonitor entryRequest) .init

/-- The answer is a cosignature, and it is vouched for. -/
theorem reachable_content_one :
    ∃ p : Processes ℕ (MonitorSystem LeafHash) (AddCheckpointRequest LeafHash) (MonitorOp LeafHash)
      (MonitorOp.Answer LeafHash) (Fault MonitorError) Note.CheckpointSignature,
    (monitorSys fun _ => oneMonitor).Reachable .init p ∧
      ⟨0, entryRequest, .ok (startSigner.cosignV1 oneEntry 0)⟩ ∈ p.shared.answers ∧
      Vouched oneMonitor entryRequest (startSigner.cosignV1 oneEntry 0) := by
  have hok : handledOne.1 = .ok (startSigner.cosignV1 oneEntry 0) := by decide +kernel
  have hinj : Function.Injective2 (hashChildren (H := LeafHash)) := freeHash_injective
  have hkey : Function.Injective hashKey := Text.Hex.encode_injective.comp Text.utf8_injective
  have hstart : (monitorSys fun _ => oneMonitor).Reachable (Solo.init : Solo LeafHash).system
      ⟨Solo.init.system, Function.update (fun _ => none) 0
        (some (entryRequest, addCheckpoint oneMonitor entryRequest))⟩ :=
    .single (.start rfl rfl)
  have hrun := ProcSys.reachable_reaches
    (Solo.reaches 0 oneBundle (addCheckpoint oneMonitor entryRequest) .init) hstart
  have hend : (monitorSys fun _ => oneMonitor).Reachable (Solo.init : Solo LeafHash).system
      ⟨{ handledOne.2.system with
          answers := handledOne.2.system.answers ++ [⟨0, entryRequest, handledOne.1⟩] }, _⟩ :=
    hrun.tail (.finish (Function.update_self _ _ _) rfl)
  rw [Solo.system_init, hok] at hend
  have hmem : ⟨0, entryRequest, .ok (startSigner.cosignV1 oneEntry 0)⟩ ∈
      handledOne.2.system.answers ++
        [⟨0, entryRequest, .ok (startSigner.cosignV1 oneEntry 0)⟩] := by
    simp
  exact ⟨_, hend, hmem, (reachable_content hinj hkey (fun _ => oneMonitor) hend).1 _ hmem _ rfl⟩

end Siglog.Monitor
