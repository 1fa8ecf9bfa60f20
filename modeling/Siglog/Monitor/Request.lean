import Siglog.Checkpoint.Text
import Siglog.Witness.AddCheckpoint

/-! The checks that the content-validating witness makes before its transaction, next to
those of the plain witness. Both start from the state in the store. They differ on a proof
that is sent for a size that has been witnessed already, which only the plain witness lets
through, and on a stored root of the empty tree, which only the other one looks at. -/

namespace Siglog.Monitor

open Concurrent (Prog)
open Concurrent.Sys (runAlone runAlone_bind runAlone_bind_error runAlone_mapErr runAlone_ofExcept)
open Note (CheckpointSigner CosignedCheckpoint NoteCrypto)
open Text (Str)
open Text.Base64 (DecodeErrors)
open Witness (AddCheckpointRequest LogConfig Store WitnessDb WitnessError WitnessedState
  verifyCheckpoint verifyConsistency)

structure MonitoringWitness (SK VK : Type) where
  signer : CheckpointSigner SK
  logs : List (LogConfig VK)

/-- Why an entry is not accepted. -/
inductive ValidationError where
  | duplicateSha256 (hash : Str) (firstIndex currentIndex : ℕ)
  | duplicateFilename (filename firstHash currentHash : Str) (firstIndex currentIndex : ℕ)
  | parseError (e : String)
  | other (e : String)
  deriving DecidableEq

inductive MonitorError where
  | busy
  | witness (e : WitnessError)
  | validation (e : ValidationError)
  deriving DecidableEq

variable {SK VK H : Type} [NoteCrypto SK VK] [Sha256Hash H] [DecodeErrors]

/-- Parse and verify the checkpoint, and validate the sizes. -/
def checkRequest (monitor : MonitoringWitness SK VK) (request : AddCheckpointRequest H) :
    Except MonitorError (CosignedCheckpoint H) :=
  match CosignedCheckpoint.fromText (H := H) request.checkpoint with
  | .error e => .error (.witness (.badRequest e.display))
  | .ok checkpoint =>
    let cp := checkpoint.checkpoint
    let origin := cp.origin.str
    match monitor.logs.find? fun l => l.origin = origin with
    | none => .error (.witness (.unknownLog origin))
    | some log =>
      match verifyCheckpoint SK log checkpoint with
      | .error e => .error (.witness (.invalidSignature e.display))
      | .ok () =>
        let size := cp.size
        if i64Max < size ∨
          size < request.oldSize then .error (.witness (.badRequest "invalid tree sizes"))
        else .ok checkpoint

variable [DecidableEq H]

omit [DecodeErrors] in
/-- Check for a conflict and verify the proof. -/
def checkState (request : AddCheckpointRequest H) (size : ℕ) (rootHash : H)
    (state : WitnessedState H) :
    Except (Fault MonitorError) Unit :=
  if request.oldSize ≠ state.size then .error (.err (.witness (.conflict state.size)))
  else
    match verifyConsistency state.size size state.rootHash rootHash request.proof with
    | .ok () => .ok ()
    | .error (.err e) => .error (.err (.witness (.invalidProof e.display)))
    | .error .panic => .error .panic

/-- The part of `add_locked` before its transaction. -/
def admission (monitor : MonitoringWitness SK VK) (request : AddCheckpointRequest H) :
    Store H (Fault MonitorError) (CosignedCheckpoint H × WitnessedState H) := do
  let checkpoint ← (Prog.ofExcept (checkRequest monitor request)).mapErr Fault.err
  let cp := checkpoint.checkpoint
  let state ← (Witness.WitnessStateStore.getOrInit cp.origin.str).mapErr fun e =>
      .err (.witness (.internal e.display))
  Prog.ofExcept (checkState request cp.size cp.rootHash state)
  .pure (checkpoint, state)

/-! ### One rule -/

/-- The signature of a known log is on the checkpoint. -/
def Signed (SK : Type) [NoteCrypto SK VK] (logs : List (LogConfig VK))
    (cosigned : CosignedCheckpoint H) : Prop :=
  ∃ log, logs.find? (fun l => l.origin = cosigned.checkpoint.origin.str) = some log ∧
    verifyCheckpoint SK log cosigned = .ok ()

/-- No proof is sent for a size that has been witnessed, and the root of the empty tree is
that of the empty string. -/
def SameRule (request : AddCheckpointRequest H) (cp : Note.Checkpoint H)
    (state : WitnessedState H) : Prop :=
  cp.size ≤ i64Max → request.oldSize = state.size →
    (0 < state.size → cp.size = state.size → cp.rootHash = state.rootHash → request.proof = []) ∧
    (state.size = 0 → 0 < cp.size → request.proof = [] → state.rootHash = emptyRootHash)

variable {request : AddCheckpointRequest H} {cosigned : CosignedCheckpoint H} {db : WitnessDb H}
  {state : WitnessedState H}

omit [DecidableEq H] in
theorem witness_checkRequest {witness : Witness.Witness SK VK}
    (hparse : CosignedCheckpoint.fromText request.checkpoint = .ok cosigned)
    (hlog : Signed SK witness.logs cosigned) {checkpoint : CosignedCheckpoint H} :
    Witness.checkRequest witness request = .ok checkpoint ↔
      checkpoint = cosigned ∧ cosigned.checkpoint.size ≤ i64Max ∧
      request.oldSize ≤ cosigned.checkpoint.size := by
  obtain ⟨log, hfind, hverify⟩ := hlog
  simp only [Witness.checkRequest, hparse, hfind, hverify]
  split_ifs <;> simp [eq_comm] <;> omega

omit [DecidableEq H] in
theorem monitor_checkRequest {monitor : MonitoringWitness SK VK}
    (hparse : CosignedCheckpoint.fromText request.checkpoint = .ok cosigned)
    (hlog : Signed SK monitor.logs cosigned) {checkpoint : CosignedCheckpoint H} :
    checkRequest monitor request = .ok checkpoint ↔
      checkpoint = cosigned ∧ cosigned.checkpoint.size ≤ i64Max ∧
      request.oldSize ≤ cosigned.checkpoint.size := by
  obtain ⟨log, hfind, hverify⟩ := hlog
  simp only [checkRequest, hparse, hfind, hverify]
  split_ifs <;> simp [eq_comm] <;> omega

section

variable {size : ℕ} {rootHash : H}

omit [DecodeErrors]

theorem verifyConsistency_same {r s : H} {proof : List H} :
    verifyConsistency size size r s proof = .ok () ↔ proof = [] ∧ r = s := by
  rw [verifyConsistency, if_neg (by omega), if_pos rfl]
  split_ifs <;> simp_all

theorem verifyConsistency_zero (h : 0 < size) {r s : H} {proof : List H} :
    verifyConsistency 0 size r s proof = .ok () ↔ proof = [] ∧ r = emptyRootHash := by
  rw [verifyConsistency, if_neg (by omega), if_neg (by omega), if_pos rfl]
  split_ifs <;> simp_all

theorem monitor_checkState : checkState request size rootHash state = .ok () ↔
    request.oldSize = state.size ∧
    verifyConsistency state.size size state.rootHash rootHash request.proof = .ok () := by
  unfold checkState
  split_ifs with h
  · simp [h]
  · rw [not_not] at h
    split <;> simp [*]

theorem witness_checkState : Witness.checkState request size rootHash state = .ok () ↔
    request.oldSize = state.size ∧ (size = 0 → rootHash = state.rootHash) ∧
      (state.size = 0 → request.proof = []) ∧ (0 < state.size → state.size ≤ size ∧
        (size = state.size → rootHash = state.rootHash) ∧ (state.size < size →
          verifyConsistency state.size size state.rootHash rootHash request.proof = .ok ())) := by
  unfold Witness.checkState
  split_ifs with hold hempty hpos hlt hsame hroot hproof
  · simp [hold]
  · simp [hempty]
  · simp [hpos]
    omega
  · simp [hsame, hroot]
    omega
  · simp_all
    omega
  · rw [not_not] at hold
    have hless : state.size < size := by omega
    have hzero : size ≠ 0 := by omega
    split <;> simp [hpos.ne', hless.le, *]
  · simp [hproof]
    omega
  · simp_all

/-- The two rules agree on sizes in range. -/
theorem checkState_iff {cp : Note.Checkpoint H} (hn : cp.size ≤ i64Max)
    (hle : request.oldSize ≤ cp.size) :
    (Witness.checkState request cp.size cp.rootHash state = .ok () ↔
      checkState request cp.size cp.rootHash state = .ok ()) ↔
      SameRule request cp state := by
  rw [witness_checkState, monitor_checkState, SameRule]
  by_cases hold : request.oldSize = state.size
  · rcases Nat.eq_zero_or_pos state.size with hzero | hpos
    · rcases Nat.eq_zero_or_pos cp.size with hsize | hsize
      · rw [hzero, hsize, verifyConsistency_same]
        simp [hold, hzero, and_comm, eq_comm]
      · rw [hzero, verifyConsistency_zero hsize]
        simp [hold, hzero, hsize, hsize.ne', hn]
    · by_cases hsame : cp.size = state.size
      · rw [hsame] at hn ⊢
        rw [verifyConsistency_same]
        simp [hold, hpos, hpos.ne', hn, eq_comm]
      · have hlt : state.size < cp.size := by omega
        have hne : cp.size ≠ 0 := by omega
        simp [hold, hpos, hpos.ne', hlt, hlt.le, hsame, hne]
  · simp [hold]

end

/-! ### The programs up to the update -/

omit [DecodeErrors] in
theorem runAlone_stored {origin : Str} (hget : db.get origin = some state) (clock : UInt64) :
    runAlone (WitnessDb.answer clock) (Witness.WitnessStateStore.getOrInit origin) db =
      (.ok state, db) := by
  have hrun : runAlone (WitnessDb.answer clock) (Witness.WitnessStateStore.get origin) db =
      (.ok (some state), db) := by
    rw [← hget]
    rfl
  rw [Witness.WitnessStateStore.getOrInit, Prog.bind_eq, runAlone_bind hrun]
  rfl

omit [DecodeErrors] in
/-- A request is admitted if its checks pass on the stored state. -/
theorem runAlone_checks {ε δ : Type} (check : Except δ (CosignedCheckpoint H)) (f : δ → ε)
    (g : Error → ε)
    (checkOn : CosignedCheckpoint H → WitnessedState H → Except ε Unit) (clock : UInt64)
    (hget : ∀ checkpoint, check = .ok checkpoint →
      db.get checkpoint.checkpoint.origin.str = some state) :
    (∃ admitted,
      (runAlone (WitnessDb.answer clock) (((Prog.ofExcept check).mapErr f).bind fun checkpoint =>
        ((Witness.WitnessStateStore.getOrInit checkpoint.checkpoint.origin.str).mapErr g).bind
          fun state =>
          (Prog.ofExcept (checkOn checkpoint state)).bind fun _ => .pure (checkpoint, state))
          db).1 = .ok admitted) ↔
      ∃ checkpoint, check = .ok checkpoint ∧ checkOn checkpoint state = .ok () := by
  have hcheck := runAlone_mapErr (WitnessDb.answer clock) f (Prog.ofExcept check) db
  rw [runAlone_ofExcept] at hcheck
  cases check with
  | error e =>
    rw [runAlone_bind_error hcheck]
    simp
  | ok checkpoint =>
    have hstate := runAlone_mapErr (WitnessDb.answer clock) g
      (Witness.WitnessStateStore.getOrInit checkpoint.checkpoint.origin.str) db
    rw [runAlone_stored (hget checkpoint rfl)] at hstate
    have hon : runAlone (WitnessDb.answer clock) (Prog.ofExcept (checkOn checkpoint state)) db =
        (checkOn checkpoint state, db) := runAlone_ofExcept _ _
    rw [runAlone_bind hcheck, runAlone_bind hstate]
    dsimp only
    cases hresult : checkOn checkpoint state with
    | error e =>
      rw [hresult] at hon
      rw [runAlone_bind_error hon]
      simp [hresult]
    | ok u =>
      rw [hresult] at hon
      rw [runAlone_bind hon]
      simp [hresult]

/-- The plain witness and the content-validating one go on to their update on the same
requests of known logs, if and only if the request and the stored state are `SameRule`. -/
theorem admit_iff (witness : Witness.Witness SK VK) (monitor : MonitoringWitness SK VK)
    (request : AddCheckpointRequest H) (cosigned : CosignedCheckpoint H)
    (hparse : CosignedCheckpoint.fromText request.checkpoint = .ok cosigned)
    (hwitness : Signed SK witness.logs cosigned) (hmonitor : Signed SK monitor.logs cosigned)
    (db : WitnessDb H)
    (state : WitnessedState H) (hstate : db.get cosigned.checkpoint.origin.str = some state)
    (clock : UInt64) :
    ((∃ admitted, (runAlone (WitnessDb.answer clock) (Witness.admission witness request) db).1 =
      .ok admitted) ↔
        ∃ admitted, (runAlone (WitnessDb.answer clock) (admission monitor request) db).1 =
          .ok admitted) ↔
      SameRule request cosigned.checkpoint state := by
  have hw : ∀ checkpoint, Witness.checkRequest witness request = .ok checkpoint →
      db.get checkpoint.checkpoint.origin.str = some state := by
    intro checkpoint h
    rwa [((witness_checkRequest hparse hwitness).mp h).1]
  have hm : ∀ checkpoint, checkRequest monitor request = .ok checkpoint →
      db.get checkpoint.checkpoint.origin.str = some state := by
    intro checkpoint h
    rwa [((monitor_checkRequest hparse hmonitor).mp h).1]
  have hrun := runAlone_checks (Witness.checkRequest witness request) Fault.err
    (fun e => .err (.internal ("failed to get state: " ++ e.display)))
    (fun checkpoint state => Witness.checkState request checkpoint.checkpoint.size
      checkpoint.checkpoint.rootHash state) clock hw
  have hrun' := runAlone_checks (checkRequest monitor request) Fault.err
    (fun e => .err (.witness (.internal e.display)))
    (fun checkpoint state =>
      checkState request checkpoint.checkpoint.size checkpoint.checkpoint.rootHash state) clock hm
  change ((∃ admitted, (runAlone (WitnessDb.answer clock) (Witness.admission witness request)
    db).1 = .ok admitted) ↔ _) at hrun
  change ((∃ admitted, (runAlone (WitnessDb.answer clock) (admission monitor request) db).1 =
    .ok admitted) ↔ _) at hrun'
  rw [hrun, hrun']
  simp only [witness_checkRequest hparse hwitness, monitor_checkRequest hparse hmonitor]
  by_cases hsizes : cosigned.checkpoint.size ≤ i64Max ∧ request.oldSize ≤ cosigned.checkpoint.size
  · have hiff : _ ↔ SameRule request cosigned.checkpoint state := checkState_iff hsizes.1 hsizes.2
    simpa [hsizes] using hiff
  · have hrule : SameRule request cosigned.checkpoint state := by
      intro hn hold
      constructor
      · intro hpos hsame
        omega
      · intro hzero
        omega
    simp [hsizes, hrule]

end Siglog.Monitor

namespace Siglog.Monitor

open Concurrent.Sys (runAlone)
open Note (CosignedCheckpoint StartKey startSigner)
open Text.Base64 (DecodeErrors)
open Witness (AddCheckpointRequest LogConfig WitnessDb verifyCheckpoint)

attribute [local instance] Text.Base64.plainErrors

/-- A signed head of three leaves. -/
def threeLeaves : CosignedCheckpoint StartHash :=
  .new ⟨Note.logOrigin, 3, emptyRootHash⟩ startSigner

def startLogs : List (LogConfig StartKey) :=
  [⟨"log".toList, none, .mk, StartKey.start 4 [], "log".toList⟩]

/-- The head has been witnessed. -/
def seenThree : WitnessDb StartHash :=
  WitnessDb.empty.put "log".toList ⟨3, emptyRootHash, threeLeaves.toText⟩

/-- For the head that both have witnessed last, only one of them takes a proof. -/
theorem repeated_head_with_proof : ∃ request : AddCheckpointRequest StartHash,
    (runAlone (WitnessDb.answer 0) (Witness.admission ⟨startSigner, startLogs⟩ request)
      seenThree).1.isOk = true ∧
    (runAlone (WitnessDb.answer 0) (admission ⟨startSigner, startLogs⟩ request) seenThree).1.isOk =
      false := by
  refine ⟨⟨3, [emptyRootHash], threeLeaves.toText⟩, ?_, ?_⟩
  all_goals decide +kernel

/-- The head that has been witnessed last, without a proof. -/
theorem admit_iff_repeated : ∃ request : AddCheckpointRequest StartHash, request.proof = [] ∧
    ((∃ admitted, (runAlone (WitnessDb.answer 0)
      (Witness.admission ⟨startSigner, startLogs⟩ request) seenThree).1 = .ok admitted) ↔
      ∃ admitted, (runAlone (WitnessDb.answer 0) (admission ⟨startSigner, startLogs⟩ request)
        seenThree).1 = .ok admitted) := by
  have hverify : verifyCheckpoint StartKey (startLogs.head (by decide)) threeLeaves = .ok () := by
    have hok : (verifyCheckpoint StartKey (startLogs.head (by decide)) threeLeaves).isOk =
        true := by decide +kernel
    cases h : verifyCheckpoint StartKey (startLogs.head (by decide)) threeLeaves with
    | error e => simp [h, Except.isOk, Except.toBool] at hok
    | ok u => rfl
  have hparse : CosignedCheckpoint.fromText threeLeaves.toText = .ok threeLeaves := by
    apply CosignedCheckpoint.Printable.fromText_toText
    constructor
    all_goals decide +kernel
  have hlogs : Signed StartKey startLogs threeLeaves := ⟨_, rfl, hverify⟩
  refine ⟨⟨3, [], threeLeaves.toText⟩, rfl, ?_⟩
  refine (admit_iff ⟨startSigner, startLogs⟩ ⟨startSigner, startLogs⟩ _ threeLeaves hparse hlogs
    hlogs seenThree
    ⟨"log".toList, 3, emptyRootHash⟩ ?_ 0).mpr ?_
  · have hrow : seenThree.rows "log".toList = some ⟨3, emptyRootHash, threeLeaves.toText⟩ := by
      simp [seenThree, WitnessDb.put]
    have hthree : Storage.asU64 3 = 3 := Storage.asU64_natCast (n := 3) (by decide)
    change seenThree.get "log".toList = _
    rw [WitnessDb.get, hrow, Option.map_some, hthree]
  · intro _ _
    exact ⟨fun _ _ _ => rfl, fun h => absurd h (by decide)⟩

end Siglog.Monitor
