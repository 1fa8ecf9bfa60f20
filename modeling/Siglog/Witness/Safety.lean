import Siglog.Witness.AddCheckpoint
import Siglog.Witness.Consistency
import Siglog.Rfc.TreeHead

/-! A witness never cosigns two checkpoints of a log that contradict each other. The
states that a row has had form a chain, each extending the one before, and every
cosigned checkpoint is one of them. -/

namespace Siglog.Witness

open Concurrent (Prog Pool)
open Note (Checkpoint CheckpointSignature CosignedCheckpoint NoteCrypto StartKey startSigner)
open Rfc (mth TreeHead Extends)
open Storage (asU64 asI64)
open Text (Str)
open Text.Base64 (DecodeErrors)

variable {H : Type}

/-! ### The table -/

/-- States are only added. -/
def Le (s s' : WitnessDb H) : Prop := ∀ origin, s.persisted origin <+: s'.persisted origin

theorem Le.refl (s : WitnessDb H) : Le s s := fun _ => List.prefix_rfl

theorem Le.trans (a b c : WitnessDb H) (h : Le a b) (h' : Le b c) : Le a c :=
  fun origin => (h origin).trans (h' origin)

theorem put_le (s : WitnessDb H) (origin : Str) (row : StateRow H) : Le s (s.put origin row) := by
  intro o
  change _ <+: if o = origin then s.persisted o ++ [(asU64 row.size, row.rootHash)]
    else s.persisted o
  split_ifs
  · exact List.prefix_append _ _
  · exact List.prefix_rfl

variable [Sha256Hash H]

/-- The row of a log is the last of the states it has had. -/
def RowInv (row : Option (StateRow H)) (persisted : List (TreeHead H)) : Prop :=
  match row with
  | none => persisted = []
  | some row =>
    0 ≤ row.size ∧ row.size ≤ i64Max ∧ persisted.getLast? = some (asU64 row.size, row.rootHash)

structure Inv (s : WitnessDb H) : Prop where
  row : ∀ origin, RowInv (s.rows origin) (s.persisted origin)
  chain : ∀ origin, (s.persisted origin).Pairwise Extends
  empty : ∀ origin, ∀ head ∈ s.persisted origin, head.1 = 0 → head.2 = emptyRootHash

/-- What is known of a state that was read: the row has had it. -/
structure Read (origin : Str) (state : WitnessedState H) (s : WitnessDb H) : Prop where
  origin_eq : state.origin = origin
  mem : (state.size, state.rootHash) ∈ s.persisted origin
  bound : state.size ≤ i64Max
  empty : state.size = 0 → state.rootHash = emptyRootHash

section

variable {s s' : WitnessDb H} {origin : Str}

theorem asU64_le {i : ℤ} (h₀ : 0 ≤ i) (h : i ≤ i64Max) : (asU64 i : ℤ) = i := by
  obtain ⟨n, rfl⟩ := Int.eq_ofNat_of_zero_le h₀
  rw [Storage.asU64_natCast (by exact_mod_cast h)]

theorem Inv.read (h : Inv s) {state : WitnessedState H} (hget : s.get origin = some state) :
    Read origin state s := by
  obtain ⟨row, hrow, rfl⟩ := Option.map_eq_some_iff.mp hget
  have hinv := h.row origin
  rw [hrow] at hinv
  obtain ⟨h₀, hb, hlast⟩ := hinv
  have hmem := List.mem_of_getLast? hlast
  have := asU64_le h₀ hb
  exact ⟨rfl, hmem, by dsimp only; omega, h.empty origin _ hmem⟩

/-- A new state that extends all that the row has had. -/
theorem Inv.put (h : Inv s) {row : StateRow H} (h₀ : 0 ≤ row.size) (hb : row.size ≤ i64Max)
    (hext : ∀ head ∈ s.persisted origin, Extends head (asU64 row.size, row.rootHash))
    (hempty : asU64 row.size = 0 → row.rootHash = emptyRootHash) : Inv (s.put origin row) := by
  refine ⟨fun o => ?_, fun o => ?_, fun o head hhead => ?_⟩
  · change RowInv (if o = origin then some row else s.rows o)
      (if o = origin then s.persisted o ++ [(asU64 row.size, row.rootHash)] else s.persisted o)
    split_ifs
    · exact ⟨h₀, hb, by rw [List.getLast?_concat]⟩
    · exact h.row o
  · change (if o = origin then s.persisted o ++ [(asU64 row.size, row.rootHash)]
      else s.persisted o).Pairwise Extends
    split_ifs with ho
    · rw [List.pairwise_append]
      refine ⟨h.chain o, List.pairwise_singleton _ _, fun a ha b hb => ?_⟩
      rw [List.mem_singleton.mp hb]
      exact hext a (ho ▸ ha)
    · exact h.chain o
  · change head ∈ (if o = origin then s.persisted o ++ [(asU64 row.size, row.rootHash)]
      else s.persisted o) at hhead
    split_ifs at hhead with ho
    · rcases List.mem_append.mp hhead with hhead | hhead
      · exact h.empty o head hhead
      · rw [List.mem_singleton.mp hhead]
        exact hempty
    · exact h.empty o head hhead

theorem insertInitial_le (s : WitnessDb H) (origin : Str) : Le s (s.insertInitial origin) := by
  rw [WitnessDb.insertInitial]
  cases s.rows origin with
  | none => exact put_le _ _ _
  | some _ => exact .refl s

/-- A new log starts from the empty tree. -/
theorem Inv.insertInitial (h : Inv s) (origin : Str) : Inv (s.insertInitial origin) := by
  rw [WitnessDb.insertInitial]
  cases hrow : s.rows origin with
  | some _ => exact h
  | none =>
    have hinv := h.row origin
    rw [hrow] at hinv
    refine h.put le_rfl (by unfold i64Max; norm_num) ?_ fun _ => rfl
    intro head hhead
    rw [show s.persisted origin = [] from hinv] at hhead
    cases hhead

/-- An update whose new state extends the one that was expected. -/
theorem Inv.update (h : Inv s) {expected : WitnessedState H} (hb : expected.size ≤ i64Max)
    (hm : s.Matching expected) {size : ℕ} {rootHash : H} (checkpoint : Str) (hsize : size ≤ i64Max)
    (hext : Extends (expected.size, expected.rootHash) (size, rootHash))
    (hempty : size = 0 → rootHash = emptyRootHash) :
    Inv (s.put expected.origin ⟨size, rootHash, checkpoint⟩) ∧
      (size, rootHash) ∈
        (s.put expected.origin ⟨size, rootHash, checkpoint⟩).persisted expected.origin := by
  have hcast : asU64 (size : ℤ) = size := Storage.asU64_natCast hsize
  obtain ⟨row, hrow, hrsize, hrroot⟩ := hm
  have hinv := h.row expected.origin
  rw [hrow] at hinv
  obtain ⟨h₀, -, hlast⟩ := hinv
  rw [hrsize, hrroot, Storage.asI64_natCast hb, Storage.asU64_natCast hb] at hlast
  refine ⟨h.put (Int.natCast_nonneg _) (by dsimp only; exact_mod_cast hsize) ?_
    (by dsimp only; rwa [hcast]), ?_⟩
  · intro head hhead
    dsimp only
    rw [hcast]
    refine Extends.trans ?_ hext
    have hmem := List.mem_of_getLast? hlast
    -- the expected state is the last one of the chain
    obtain ⟨init, hinit⟩ := List.getLast?_eq_some_iff.mp hlast
    have hchain := h.chain expected.origin
    rw [hinit] at hhead hchain
    rcases List.mem_append.mp hhead with hhead | hhead
    · exact (List.pairwise_append.mp hchain).2.2 head hhead _ (List.mem_singleton_self _)
    · rw [List.mem_singleton.mp hhead]
      exact .refl _
  · change _ ∈ if expected.origin = expected.origin then _ else _
    rw [if_pos rfl, hcast]
    exact List.mem_append_right _ (List.mem_singleton_self _)

end

theorem Inv.init : Inv (WitnessDb.empty : WitnessDb H) :=
  ⟨fun _ => rfl, fun _ => List.Pairwise.nil, fun _ _ h => by cases h⟩

/-- The persisted size is that of the last state. -/
theorem Inv.size_eq {s : WitnessDb H} (h : Inv s) (origin : Str) :
    s.size origin = ((s.persisted origin).getLast?.map Prod.fst).getD 0 := by
  have hinv := h.row origin
  unfold WitnessDb.size
  cases hrow : s.rows origin with
  | none =>
    rw [hrow] at hinv
    rw [show s.persisted origin = [] from hinv]
    rfl
  | some row =>
    rw [hrow] at hinv
    rw [hinv.2.2]
    rfl

theorem Inv.le_size {s : WitnessDb H} (h : Inv s) {origin : Str} {head : TreeHead H}
    (hmem : head ∈ s.persisted origin) :
    head.1 ≤ s.size origin := by
  obtain ⟨last, hlast⟩ := Option.ne_none_iff_exists'.mp
    (mt List.getLast?_eq_none_iff.mp (List.ne_nil_of_mem hmem))
  obtain ⟨init, hinit⟩ := List.getLast?_eq_some_iff.mp hlast
  have hchain := h.chain origin
  rw [h.size_eq, hlast]
  rw [hinit] at hmem hchain
  rcases List.mem_append.mp hmem with hmem | hmem
  · exact ((List.pairwise_append.mp hchain).2.2 head hmem _ (List.mem_singleton_self _)).size_le
  · rw [List.mem_singleton.mp hmem]
    rfl

theorem size_mono {s s' : WitnessDb H} (h : Inv s) (h' : Inv s') (hle : Le s s') (origin : Str) :
    s.size origin ≤ s'.size origin := by
  rw [h.size_eq]
  cases hlast : (s.persisted origin).getLast? with
  | none => exact Nat.zero_le _
  | some last => exact h'.le_size ((hle origin).subset (List.mem_of_getLast? hlast))

/-! ### The checks -/

/-- What passes the checks extends the persisted state. -/
theorem checkState_ok [DecidableEq H] (hinj : Function.Injective2 (hashChildren (H := H)))
    {request : AddCheckpointRequest H} {newSize : ℕ} {newRoot : H} {state : WitnessedState H}
    (hb : newSize ≤ i64Max) (hempty : state.size = 0 → state.rootHash = emptyRootHash)
    (h : checkState request newSize newRoot state = .ok ()) :
    request.oldSize = state.size ∧ Extends (state.size, state.rootHash) (newSize, newRoot) ∧
      (newSize = 0 → newRoot = emptyRootHash) := by
  unfold checkState at h
  split_ifs at h with hold hzero hpos hlt hsame hroot hproof
  · -- same size
    rw [not_not] at hold hroot
    refine ⟨hold, ⟨hsame.ge, fun _ => hroot.symm, fun D hD hmth => ?_⟩, fun h0 => by omega⟩
    rw [List.take_of_length_le (by dsimp only at hD ⊢; omega), ← hmth]
    exact hroot.symm
  · -- growth
    rw [not_not] at hold
    cases hv : verifyConsistency state.size newSize state.rootHash newRoot request.proof with
    | error e =>
      rw [hv] at h
      cases e with
      | err e => cases h
      | panic => cases h
    | ok _ =>
      refine ⟨hold, ⟨by dsimp only; omega, fun heq => absurd heq.symm hsame, fun D hD hmth => ?_⟩,
        fun h0 => by omega⟩
      dsimp only at hD hmth ⊢
      rw [← hD, hmth] at hv
      exact (verifyConsistency_sound hinj (by omega) hv).2.1
  · -- bootstrap
    rw [not_not] at hold
    have hs : state.size = 0 := by omega
    have hnew : newSize = 0 → newRoot = emptyRootHash := by
      intro h0
      by_contra hne
      exact hzero ⟨h0, fun heq => hne (heq.trans (hempty hs))⟩
    refine ⟨hold, ?_, hnew⟩
    rw [hs, hempty hs, ← mth_empty]
    exact Rfc.extends_empty fun h0 => (hnew h0).trans mth_empty.symm

/-! ### One request -/

/-- A program of the witness ends with a value that satisfies `P`, or with an error. -/
def EndsOk {ε α : Type} (P : α → WitnessDb H → Prop) : Except ε α → WitnessDb H → Prop
  | .ok a, s => P a s
  | .error _, _ => True

def Runs {ε α : Type} (p : Store H ε α) (P : α → WitnessDb H → Prop) (s : WitnessDb H) : Prop :=
  p.Safe StoreExec Inv Le Le (EndsOk P) s

section

variable {ε δ α β : Type} {s : WitnessDb H} {P : α → WitnessDb H → Prop}

theorem runs_bind {p : Store H ε α} {f : α → Store H ε β} {Q : β → WitnessDb H → Prop}
    (hp : Runs p P s) (hf : ∀ a s, P a s → Runs (f a) Q s) : Runs (p.bind f) Q s := by
  refine Prog.safe_bind.mpr (Prog.safe_weaken ?_ hp)
  intro x s hx
  cases x with
  | ok a => exact hf a s hx
  | error e => trivial

theorem runs_mapErr {f : ε → δ} {p : Store H ε α} (hp : Runs p P s) : Runs (p.mapErr f) P s := by
  refine Prog.safe_mapErr (Prog.safe_weaken ?_ hp)
  intro x s hx
  cases x with
  | ok a => exact hx
  | error e => trivial

theorem runs_ofExcept {x : Except ε α} (h : ∀ a, x = .ok a → P a s) :
    Runs (Prog.ofExcept x) P s := by
  cases x with
  | ok a => exact h a rfl
  | error e => trivial

theorem runs_get (origin : Str) :
    Runs (WitnessStateStore.get origin) (fun state s => ∀ st, state = some st → Read origin st s)
      s := by
  intro s₁ _ hi r s₂ he
  cases he with
  | get => exact ⟨hi, .refl _, fun st hst => hi.read hst⟩
  | getFault => exact ⟨hi, .refl _, trivial⟩

theorem runs_getOrInit (origin : Str) :
    Runs (WitnessStateStore.getOrInit origin) (Read origin) s := by
  refine runs_bind (runs_get origin) fun state s h => ?_
  cases state with
  | some state => exact h state rfl
  | none =>
    refine runs_bind (P := fun _ _ => True) ?_ fun _ s _ =>
      runs_bind (runs_get origin) fun state s h => ?_
    · intro s₁ _ hi r s₂ he
      cases he with
      | insertInitial =>
        refine ⟨hi.insertInitial origin, insertInitial_le _ _, ?_⟩
        cases r with
        | ok _ => trivial
        | error e => trivial
      | insertFault => exact ⟨hi, .refl _, trivial⟩
    · cases state with
      | some state => exact h state rfl
      | none => trivial

theorem runs_update [DecidableEq H] {origin : Str} {expected : WitnessedState H} {size : ℕ}
    {rootHash : H} {checkpoint : Str} (hread : Read origin expected s)
    (hext : Extends (expected.size, expected.rootHash) (size, rootHash))
    (hempty : size = 0 → rootHash = emptyRootHash) :
    Runs (WitnessStateStore.update expected size rootHash checkpoint)
      (fun updated s => updated = true → (size, rootHash) ∈ s.persisted origin) s := by
  rw [WitnessStateStore.update]
  split_ifs with _ hsize
  · trivial
  · trivial
  obtain rfl := hread.origin_eq
  intro s₁ _ hi r s₂ he
  cases he with
  | update =>
    rename_i hm hr
    obtain ⟨hi', hmem⟩ := hi.update hread.bound hm checkpoint (by omega) hext hempty
    refine ⟨hi', put_le _ _ _, ?_⟩
    cases r with
    | ok updated => exact fun _ => hmem
    | error e => trivial
  | stale => exact ⟨hi, .refl _, fun h => by cases h⟩
  | updateFault => exact ⟨hi, .refl _, trivial⟩

end

section

variable {SK VK : Type} [NoteCrypto SK VK] [DecodeErrors]

/-- A request was cosigned: its checkpoint is one of the states of its log. -/
structure Cosigned (witness : Witness SK VK) (request : AddCheckpointRequest H)
    (signature : CheckpointSignature)
    (cosigned : CosignedCheckpoint H) (s : WitnessDb H) : Prop where
  parsed : CosignedCheckpoint.fromText request.checkpoint = .ok cosigned
  signature : ∃ timestamp, signature = witness.signer.cosignV1 cosigned.checkpoint timestamp
  mem : (cosigned.checkpoint.size, cosigned.checkpoint.rootHash) ∈
    s.persisted cosigned.checkpoint.origin.str

/-- What the request has passed. -/
theorem checkRequest_ok {witness : Witness SK VK} {request : AddCheckpointRequest H}
    {checkpoint : CosignedCheckpoint H} (h : checkRequest witness request = .ok checkpoint) :
    CosignedCheckpoint.fromText request.checkpoint = .ok checkpoint ∧
    checkpoint.checkpoint.size ≤ i64Max ∧
      request.oldSize ≤ checkpoint.checkpoint.size := by
  unfold checkRequest at h
  split at h
  · cases h
  rename_i parsed hparsed
  dsimp only at h
  split at h
  · cases h
  split at h
  · cases h
  split_ifs at h with hmax hold
  cases h
  exact ⟨hparsed, by omega, by omega⟩

variable [DecidableEq H]

theorem runs_addCheckpoint (hinj : Function.Injective2 (hashChildren (H := H)))
    (witness : Witness SK VK) (request : AddCheckpointRequest H) (s : WitnessDb H) :
    Runs (addCheckpoint witness request)
      (fun signature s => ∃ cosigned, Cosigned witness request signature cosigned s) s := by
  refine runs_bind (P := fun checkpoint _ => checkRequest witness request = .ok checkpoint)
    (runs_mapErr (runs_ofExcept fun checkpoint h => h)) fun checkpoint s hcheck => ?_
  obtain ⟨hparsed, hb, -⟩ := checkRequest_ok hcheck
  refine runs_bind (runs_mapErr (runs_getOrInit _)) fun state s hread => ?_
  refine runs_bind (P := fun _ s => Read checkpoint.checkpoint.origin.str state s ∧
      Extends (state.size, state.rootHash)
        (checkpoint.checkpoint.size, checkpoint.checkpoint.rootHash) ∧
      (checkpoint.checkpoint.size = 0 → checkpoint.checkpoint.rootHash = emptyRootHash))
    (runs_ofExcept fun _ h => ⟨hread, (checkState_ok hinj hb hread.empty h).2⟩) ?_
  rintro _ s ⟨hread, hext, hempty⟩
  refine runs_bind (runs_mapErr (runs_update hread hext hempty)) fun updated s hupdated => ?_
  cases updated with
  | false => exact runs_bind (runs_mapErr (runs_getOrInit _)) fun _ _ _ => trivial
  | true =>
    have hmem := hupdated rfl
    intro s₁ hle hi r s₂ he
    cases he with
    | now =>
      refine ⟨hi, .refl _, ?_⟩
      cases r with
      | error e => trivial
      | ok timestamp => exact ⟨checkpoint, hparsed, ⟨timestamp, rfl⟩, (hle _).subset hmem⟩

/-! ### Runs -/

/-- Any number of requests, handled concurrently. A handler is known by its request;
one that stops has crashed. -/
def witnessSys (witness : Witness SK VK) :
    Concurrent.Sys (WitnessDb H) (AddCheckpointRequest H) (StoreOp H)
    (StoreOp.Answer H) (Fault WitnessError) CheckpointSignature where
  env _ _ := False
  start _ request p := p = addCheckpoint witness request
  exec := StoreExec

abbrev WitnessPool (H : Type) :=
  Pool (WitnessDb H) (AddCheckpointRequest H) (StoreOp H) (StoreOp.Answer H) (Fault WitnessError)
    CheckpointSignature

def witnessProof (hinj : Function.Injective2 (hashChildren (H := H))) (witness : Witness SK VK) :
    (witnessSys (H := H) witness).Proof where
  Inv := Inv
  le := Le
  Out request := EndsOk fun signature s => ∃ cosigned, Cosigned witness request signature cosigned s
  refl := Le.refl
  trans := Le.trans
  stable := by
    intro request x s s' h hle
    cases x with
    | error e => trivial
    | ok signature =>
      obtain ⟨cosigned, hparsed, hsignature, hmem⟩ := h
      exact ⟨cosigned, hparsed, hsignature, (hle _).subset hmem⟩
  env _ _ _ h := h.elim
  start := by
    rintro s request _ _ rfl
    exact runs_addCheckpoint hinj witness request s

/-- No split view. Two checkpoints of a log that have been cosigned, in whatever order
and however the requests were interleaved and interrupted, are consistent; and the
persisted size never decreases and is at least every cosigned size. -/
theorem no_split_view (hinj : Function.Injective2 (hashChildren (H := H))) (witness : Witness SK VK)
    {p : WitnessPool H} (h : (witnessSys witness).Reachable WitnessDb.empty p) :
    (∀ (request₁ request₂ : AddCheckpointRequest H) (signature₁ signature₂ : CheckpointSignature),
      (request₁, .pure signature₁) ∈ p.threads → (request₂, .pure signature₂) ∈ p.threads →
        ∃ cosigned₁ cosigned₂ : CosignedCheckpoint H,
          CosignedCheckpoint.fromText request₁.checkpoint = .ok cosigned₁ ∧
          CosignedCheckpoint.fromText request₂.checkpoint = .ok cosigned₂ ∧
          (∃ timestamp, signature₁ = witness.signer.cosignV1 cosigned₁.checkpoint timestamp) ∧
          (∃ timestamp, signature₂ = witness.signer.cosignV1 cosigned₂.checkpoint timestamp) ∧
          cosigned₁.checkpoint.size ≤ p.shared.size cosigned₁.checkpoint.origin.str ∧
          (cosigned₁.checkpoint.origin.str = cosigned₂.checkpoint.origin.str →
            (cosigned₁.checkpoint.size = cosigned₂.checkpoint.size →
              cosigned₁.checkpoint.rootHash = cosigned₂.checkpoint.rootHash) ∧
            (cosigned₁.checkpoint.size ≤ cosigned₂.checkpoint.size →
              ∀ D : List H, D.length = cosigned₂.checkpoint.size →
                cosigned₂.checkpoint.rootHash = mth D →
                cosigned₁.checkpoint.rootHash = mth (D.take cosigned₁.checkpoint.size)))) ∧
    ∀ q, Relation.ReflTransGen (witnessSys witness).Step p q →
      ∀ origin, p.shared.size origin ≤ q.shared.size origin := by
  have hgood := (witnessProof hinj witness).reachable_good Inv.init h
  refine ⟨?_, ?_⟩
  · intro request₁ request₂ signature₁ signature₂ h₁ h₂
    obtain ⟨cosigned₁, hparsed₁, hsig₁, hmem₁⟩ := hgood.2 _ h₁
    obtain ⟨cosigned₂, hparsed₂, hsig₂, hmem₂⟩ := hgood.2 _ h₂
    refine ⟨cosigned₁, cosigned₂, hparsed₁, hparsed₂, hsig₁, hsig₂, hgood.1.le_size hmem₁,
      fun horigin => ?_⟩
    rw [horigin] at hmem₁
    have hchain := hgood.1.chain cosigned₂.checkpoint.origin.str
    refine ⟨fun heq => ?_, fun hle D hD hroot => ?_⟩
    · exact (Rfc.extends_of_chain hchain hmem₁ hmem₂ heq.le).same heq
    · exact (Rfc.extends_of_chain hchain hmem₁ hmem₂ hle).consistent D hD hroot
  · intro q hpq origin
    obtain ⟨hq, hle⟩ := (witnessProof hinj witness).run_good hpq hgood
    exact size_mono hgood.1 hq.1 hle origin

end

/-! ### A tree that grows by one leaf -/

/-- A free hash. One node has a code of thirty-two bytes, so that a checkpoint can hold it. -/
def CodedHash : Type := FreeHash
  deriving DecidableEq

namespace CodedHash

def first : CodedHash := FreeHash.bytes (StartKey.start 32 [7])

def second : CodedHash := FreeHash.bytes (StartKey.start 32 [8])

def both : CodedHash := FreeHash.node first second

instance : Sha256Hash CodedHash where
  fromBytes b := if b = StartKey.start 32 [9] then both else FreeHash.bytes b
  asBytes h := if h = both then StartKey.start 32 [9] else Sha256Hash.asBytes (show FreeHash from h)
  hashLeaf := FreeHash.leaf
  hashChildren := FreeHash.node

end CodedHash

section

attribute [local instance] Text.Base64.plainErrors

def oneWitness : Witness StartKey StartKey :=
  ⟨⟨"witness".toList, StartKey.mk, StartKey.start 4 []⟩,
    [⟨"log".toList, none, StartKey.mk, startSigner.keyId, startSigner.name⟩]⟩

def grownLeaves : List CodedHash := [.first, .second]

def headAt (size : ℕ) : Checkpoint CodedHash := ⟨Note.logOrigin, size, mth (grownLeaves.take size)⟩

def headRequest (oldSize : ℕ) (proof : List CodedHash) (size : ℕ) :
    AddCheckpointRequest CodedHash :=
  ⟨oldSize, proof, (CosignedCheckpoint.new (headAt size) startSigner).toText⟩

/-- The answer to a request that is handled alone, and the table after it. -/
def handled (request : AddCheckpointRequest CodedHash) (s : WitnessDb CodedHash) :
    Except (Fault WitnessError) CheckpointSignature × WitnessDb CodedHash :=
  Concurrent.Sys.runAlone (WitnessDb.answer 0) (addCheckpoint oneWitness request) s

def headOf (cosigned : CosignedCheckpoint CodedHash) : Text.Str × ℕ × CodedHash :=
  (cosigned.checkpoint.origin.str, cosigned.checkpoint.size, cosigned.checkpoint.rootHash)

/-- The first leaf is cosigned, and then both with a proof. -/
theorem no_split_view_two :
    ∃ (p : WitnessPool CodedHash) (cosigned₁ cosigned₂ : CosignedCheckpoint CodedHash),
      (witnessSys oneWitness).Reachable WitnessDb.empty p ∧
      CosignedCheckpoint.fromText (headRequest 0 [] 1).checkpoint = .ok cosigned₁ ∧
      CosignedCheckpoint.fromText (headRequest 1 [.second] 2).checkpoint = .ok cosigned₂ ∧
      cosigned₁.checkpoint.size = 1 ∧ cosigned₂.checkpoint.size = 2 ∧
      1 ≤ p.shared.size cosigned₁.checkpoint.origin.str ∧
      cosigned₁.checkpoint.rootHash = mth (grownLeaves.take 1) := by
  let request₁ := headRequest 0 [] 1
  let request₂ := headRequest 1 [.second] 2
  let first := handled request₁ .empty
  let second := handled request₂ first.2
  have h₀ : (witnessSys oneWitness).Reachable WitnessDb.empty
      (⟨WitnessDb.empty, []⟩ : WitnessPool CodedHash) := .refl
  have h₁ := Concurrent.Sys.reachable_runAlone (exec_answer 0) h₀ (t := request₁) rfl
  have h₂ : (witnessSys oneWitness).Reachable WitnessDb.empty
      ⟨second.2, [(request₁, Prog.ofExcept first.1), (request₂, Prog.ofExcept second.1)]⟩ :=
    Concurrent.Sys.reachable_runAlone (exec_answer 0) h₁ (t := request₂) rfl
  have hfirst : first.1 = .ok (oneWitness.signer.cosignV1 (headAt 1) 0) := by decide +kernel
  have hsecond : second.1 = .ok (oneWitness.signer.cosignV1 (headAt 2) 0) := by decide +kernel
  rw [hfirst, hsecond] at h₂
  have hinj : Function.Injective2 (hashChildren (H := CodedHash)) := freeHash_injective
  obtain ⟨cosigned₁, cosigned₂, hparsed₁, hparsed₂, -, -, hsize, hconsistent⟩ :=
    (no_split_view hinj oneWitness h₂).1 request₁ request₂ _ _ (List.mem_cons_self ..)
      (List.mem_cons_of_mem _ (List.mem_singleton_self _))
  have hhead₁ : (CosignedCheckpoint.fromText request₁.checkpoint).toOption.map headOf =
      some (headOf (.new (headAt 1) startSigner)) := by decide +kernel
  have hhead₂ : (CosignedCheckpoint.fromText request₂.checkpoint).toOption.map headOf =
      some (headOf (.new (headAt 2) startSigner)) := by decide +kernel
  rw [hparsed₁] at hhead₁
  rw [hparsed₂] at hhead₂
  injection Option.some.inj hhead₁ with horigin₁ hrest₁
  injection hrest₁ with hsize₁ hroot₁
  injection Option.some.inj hhead₂ with horigin₂ hrest₂
  injection hrest₂ with hsize₂ hroot₂
  -- the first root is that of the first leaf of the tree of the second one
  have hroot := (hconsistent (horigin₁.trans horigin₂.symm)).2 (by rw [hsize₁, hsize₂]; decide)
    grownLeaves (by rw [hsize₂]; rfl) hroot₂
  rw [hsize₁] at hsize hroot
  exact ⟨_, cosigned₁, cosigned₂, h₂, hparsed₁, hparsed₂, hsize₁, hsize₂, hsize, hroot⟩

end

end Siglog.Witness
