import Siglog.Monitor.Invariant

/-! The steps of one request. After it has locked the row of its log, nothing but its own
statements changes the memory of the process, its transaction, and what the transaction sees
of the log. There is one rule for each kind of operation. -/

namespace Siglog.Monitor

open Concurrent (Prog)
open Note (NoteCrypto)
open Storage (asI64 asU64)
open Text (Str)
open Text.Base64 (DecodeErrors)
open Witness (StateRow StoreExec StoreOp WitnessDb WitnessedState WitnessStateStore.getOrInit
  WitnessStateStore.update)

variable {SK VK H ε δ α β : Type} [NoteCrypto SK VK] [DecodeErrors] [Sha256Hash H] [EntryJson]
  [Hasher]
variable {monitors : ℕ → MonitoringWitness SK VK} {i : ℕ} {s : MonitorSystem H}

/-- A program ends with a value that satisfies `P`, or with an error. -/
def EndsOk (P : α → MonitorSystem H → Prop) : Except ε α → MonitorSystem H → Prop
  | .ok a, s => P a s
  | .error _, _ => True

/-- A program of process `i`. -/
def Runs (monitors : ℕ → MonitoringWitness SK VK) (i : ℕ)
    (p : Prog (MonitorOp H) (MonitorOp.Answer H) ε α)
    (P : α → MonitorSystem H → Prop) (s : MonitorSystem H) : Prop :=
  p.Safe (Exec i) (Inv monitors) (Rely i) (Others i) (EndsOk P) s

section

variable {P : α → MonitorSystem H → Prop} {Q : β → MonitorSystem H → Prop}

theorem runs_bind {p : Prog (MonitorOp H) (MonitorOp.Answer H) ε α}
    {f : α → Prog (MonitorOp H) (MonitorOp.Answer H) ε β}
    (hp : Runs monitors i p P s) (hf : ∀ a s, P a s → Runs monitors i (f a) Q s) :
    Runs monitors i (p.bind f) Q s := by
  refine Prog.safe_bind.mpr (Prog.safe_weaken ?_ hp)
  intro x s hx
  cases x with
  | ok a => exact hf a s hx
  | error e => trivial

theorem runs_weaken {P' : α → MonitorSystem H → Prop} (h : ∀ a s, P a s → P' a s)
    {p : Prog (MonitorOp H) (MonitorOp.Answer H) ε α} (hp : Runs monitors i p P s) :
    Runs monitors i p P' s := by
  refine Prog.safe_weaken ?_ hp
  intro x s hx
  cases x with
  | ok a => exact h a s hx
  | error e => trivial

theorem runs_mapErr {f : ε → δ} {p : Prog (MonitorOp H) (MonitorOp.Answer H) ε α}
    (hp : Runs monitors i p P s) :
    Runs monitors i (p.mapErr f) P s := by
  refine Prog.safe_mapErr (Prog.safe_weaken ?_ hp)
  intro x s hx
  cases x with
  | ok a => exact hx
  | error e => trivial

theorem runs_attempt {p : Prog (MonitorOp H) (MonitorOp.Answer H) ε α}
    (hp : Runs monitors i p P s) :
    Runs monitors i p.attempt (fun x s => EndsOk P x s) s := Prog.safe_attempt hp

theorem runs_ofExcept {x : Except ε α} (h : ∀ a, x = .ok a → P a s) :
    Runs monitors i (Prog.ofExcept x : Prog (MonitorOp H) (MonitorOp.Answer H) ε α) P s := by
  cases x with
  | ok a => exact h a rfl
  | error e => trivial

end

/-! ### One operation -/

/-- The rule for one operation: what it keeps, from an assertion that others do not touch. -/
theorem runs_call {o : MonitorOp H} {J : MonitorSystem H → Prop}
    {P : o.Answer H → MonitorSystem H → Prop}
    (hJ : ∀ s s', J s → Rely i s s' → J s')
    (h : ∀ s, J s → Inv monitors s → ∀ r s', Exec i s o r s' → Inv monitors s' ∧ Others i s s' ∧
      P r s') (hs : J s) :
    Runs monitors i (Prog.call o : Prog (MonitorOp H) (MonitorOp.Answer H) ε (o.Answer H)) P s :=
  fun s₁ hrely hi r s₂ he => h s₁ (hJ _ _ hs hrely) hi r s₂ he

/-- The rule for an operation whose error ends the request. -/
theorem runs_perform {o : MonitorOp H} {f : ε → Fault MonitorError} {ho : o.Answer H = Except ε α}
    {J : MonitorSystem H → Prop}
    {P : α → MonitorSystem H → Prop} (hJ : ∀ s s', J s → Rely i s s' → J s')
    (h : ∀ s, J s → Inv monitors s → ∀ r s', Exec i s o r s' →
      Inv monitors s' ∧ Others i s s' ∧ ∀ a, ho ▸ r = (.ok a : Except ε α) → P a s') (hs : J s) :
    Runs monitors i (perform f o ho) P s := by
  refine runs_bind (runs_call hJ h hs) fun r s hr => runs_ofExcept fun a ha => ?_
  apply hr
  generalize (ho ▸ r : Except ε α) = x at ha
  cases x with
  | ok b =>
    obtain rfl := Except.ok.inj ha
    rfl
  | error e => cases ha

/-! ### Inside the transaction -/

/-- A request has locked its log: the memory of its process, and the log as its transaction
sees it. -/
structure Holds (i : ℕ) (origin : Str) (memory : CondaMonitor) (part : LogPart H)
    (s : MonitorSystem H) : Prop where
  memory : s.memory i = memory
  txn : ∃ txn, s.txns (.process i) = some txn ∧ (∀ o, o ∈ txn.locked ↔ o = origin) ∧
    (txn.view s.db).part origin = part

variable {origin : Str} {memory : CondaMonitor} {part : LogPart H}

omit [DecodeErrors] [Sha256Hash H] [EntryJson] [Hasher] in
theorem Holds.rely {s' : MonitorSystem H} (h : Holds i origin memory part s) (hrely : Rely i s s') :
    Holds i origin memory part s' := by
  obtain ⟨hmemory, txn, ht, hlocked, hpart⟩ := h
  refine ⟨hrely.memory.trans hmemory, txn, hrely.txn.trans ht, hlocked, ?_⟩
  rw [part_view] at hpart ⊢
  rwa [hrely.locked txn ht origin ((hlocked origin).mpr rfl)]

/-- The next statement of the transaction. -/
theorem Inv.statement (hi : Inv monitors s) {txn : Txn H} (ht : s.txns (.process i) = some txn)
    {w : Write H}
    (hlocked : ∀ o, o ∈ txn.locked ↔ o = origin) (hw : w.origin = origin) {locked : List Str}
    (hlocked' : ∀ o, o ∈ locked ↔ o = origin) :
    Inv monitors (s.setTxn (.process i) (some ⟨locked, txn.writes ++ [w]⟩)) := by
  apply hi.setTxn
  · intro w' hw'
    rw [hlocked']
    rcases List.mem_append.mp hw' with hmem | hmem
    · exact (hlocked _).mp (hi.covered _ txn ht w' hmem)
    · rw [List.mem_singleton.mp hmem]
      exact hw
  · intro o ho
    exact hi.free ht ((hlocked o).mpr ((hlocked' o).mp ho))

omit [DecodeErrors] [Sha256Hash H] [EntryJson] [Hasher] in
theorem Holds.statement (hmemory : s.memory i = memory) {txn : Txn H}
    (hpart : (txn.view s.db).part origin = part)
    {w : Write H} (hw : w.origin = origin) {locked : List Str}
    (hlocked : ∀ o, o ∈ locked ↔ o = origin) :
    Holds i origin memory (part.write w)
      (s.setTxn (.process i) (some ⟨locked, txn.writes ++ [w]⟩)) := by
  refine ⟨hmemory, _, s.txns_setTxn_self _ _, hlocked, ?_⟩
  change (List.foldl MonitorDb.write s.db (txn.writes ++ [w])).part origin = _
  rw [List.foldl_append, List.foldl_cons, List.foldl_nil, part_write, if_pos hw]
  exact congrArg (LogPart.write · w) hpart

theorem runs_index (which : CondaIndex) (o : IndexOp) (hs : Holds i origin memory part s) :
    Runs monitors i (index which o) (fun r s => r = ((memory.get which).answer o).1 ∧
      Holds i origin (memory.set which ((memory.get which).answer o).2) part s) s := by
  refine runs_call (fun _ _ => Holds.rely) ?_ hs
  rintro s ⟨rfl, htxn⟩ hi r s' he
  cases he with
  | index =>
    obtain ⟨hinv, hothers⟩ :=
      hi.setMemory (i := i) ((s.memory i).set which (((s.memory i).get which).answer o).2)
    exact ⟨hinv, hothers, rfl, s.memory_setMemory_self _ _, htxn⟩

/-- What a client does. -/
theorem runs_client {p : Client α} {V : α → Prop}
    (hV : p.Returns (fun _ _ => True) fun x => ∀ a, x = .ok a → V a)
    (f : Fault Error → Fault MonitorError) (hs : Holds i origin memory part s) :
    Runs monitors i ((onClient p).mapErr f) (fun a s => Holds i origin memory part s ∧ V a) s := by
  have hcalls : (onClient (H := H) p).Calls fun o => ∃ c, o = .client c := by
    apply Prog.calls_translate
    exact fun c => ⟨⟨c, rfl⟩, fun _ => trivial⟩
  refine runs_mapErr (Prog.safe_weaken ?_ (Prog.safe_and_returns
    (Prog.safe_of_calls (fun _ _ h hrely => Holds.rely h hrely) ?_ hcalls hs)
      (Prog.returns_translate_any hV)))
  · rintro x s ⟨hholds, hvalue⟩
    cases x with
    | ok a => exact ⟨hholds, hvalue a rfl⟩
    | error e => trivial
  · rintro _ ⟨c, rfl⟩ s hholds hi r s' he
    cases he with
    | client => exact ⟨hi, fun j _ => .refl j s, hholds⟩

/-- The rows that are loaded are those that the transaction sees. -/
theorem runs_loadRows (indexName : Str) (hs : Holds i origin memory part s) :
    Runs monitors i (perform internal (.loadRows indexName origin) rfl) (fun rows s =>
      rows = part.content.filter (fun row => row.indexName = indexName) ∧
      Holds i origin memory part s) s := by
  refine runs_perform (fun _ _ => Holds.rely) ?_ hs
  rintro s ⟨hmemory, txn, ht, hlocked, rfl⟩ hi r s' he
  cases he with
  | loadFault e => exact ⟨hi, fun j _ => .refl j _, fun rows hrows => by cases hrows⟩
  | loadRows ht' =>
    obtain rfl := Option.some.inj (ht.symm.trans ht')
    refine ⟨hi, fun j _ => .refl j _, fun rows hrows => ?_⟩
    obtain rfl := Except.ok.inj hrows
    refine ⟨?_, hmemory, txn, ht, hlocked, rfl⟩
    rw [MonitorDb.part, List.filter_filter]
    congr 1
    funext row
    simp

theorem runs_insertRow {row : ContentRow} (hrow : row.origin = origin)
    (hs : Holds i origin memory part s) :
    Runs monitors i (perform internal (.insertRow row) rfl)
      (fun _ s => Holds i origin memory (part.write (.content row)) s) s := by
  refine runs_perform (fun _ _ => Holds.rely) ?_ hs
  rintro s ⟨hmemory, txn, ht, hlocked, hpart⟩ hi r s' he
  cases he with
  | insertFault e => exact ⟨hi, fun j _ => .refl j _, fun u hu => by cases hu⟩
  | insert ht' r =>
    obtain rfl := Option.some.inj (ht.symm.trans ht')
    have hw : (Write.content row : Write H).origin = origin := hrow
    exact ⟨hi.statement ht hlocked hw hlocked, others_setTxn s i _,
      fun _ _ => .statement hmemory hpart hw hlocked⟩

/-- An update of the row of the log. -/
theorem runs_update [DecidableEq H] {expected : WitnessedState H}
    (horigin : expected.origin = origin) (size : ℕ) (rootHash : H)
    (checkpoint : Str) (hs : Holds i origin memory part s) :
    Runs monitors i (inTransaction (WitnessStateStore.update expected size rootHash checkpoint))
      (fun updated s =>
      updated = true →
      Holds i origin memory (part.write (.state origin ⟨size, rootHash, checkpoint⟩)) s) s := by
  rw [WitnessStateStore.update]
  split_ifs
  · trivial
  · trivial
  change Runs monitors i
    ((Prog.call (MonitorOp.updateMatching expected size rootHash checkpoint)).bind fun r =>
    (Prog.ofExcept r).translate statement) _ s
  refine runs_bind (P := fun r s => r = .ok true →
    Holds i origin memory (part.write (.state origin ⟨size, rootHash, checkpoint⟩)) s)
    (runs_call (fun _ _ => Holds.rely) ?_ hs) fun r s hr => ?_
  · rintro s ⟨hmemory, txn, ht, hlocked, hpart⟩ hi r s' he
    cases he with
    | updateStale => exact ⟨hi, fun j _ => .refl j _, fun h => by cases h⟩
    | updateFault e => exact ⟨hi, fun j _ => .refl j _, fun h => by cases h⟩
    | update ht' =>
      obtain rfl := Option.some.inj (ht.symm.trans ht')
      subst horigin
      have hlocked' : ∀ o, o ∈ expected.origin :: txn.locked ↔ o = expected.origin := by
        intro o
        simp [hlocked]
      have hw : (Write.state expected.origin ⟨size, rootHash, checkpoint⟩ : Write H).origin =
          expected.origin := rfl
      exact ⟨hi.statement ht hlocked hw hlocked', others_setTxn s i _,
        fun _ => .statement hmemory hpart hw hlocked'⟩
  · cases r with
    | error e => trivial
    | ok updated =>
      rintro rfl
      exact hr rfl

/-- A commit that leaves the log in a good state. -/
theorem runs_commit (hgood : PartGood origin part) (hs : Holds i origin memory part s) :
    Runs monitors i (perform databaseError .commit rfl) (fun _ _ => True) s := by
  refine runs_perform (fun _ _ => Holds.rely) ?_ hs
  rintro s ⟨hmemory, txn, ht, hlocked, rfl⟩ hi r s' he
  have hgood' : ∀ o ∈ txn.locked, PartGood o ((txn.view s.db).part o) := by
    intro o ho
    rw [(hlocked o).mp ho]
    exact hgood
  cases he with
  | commitFault e => exact ⟨hi.clear _, others_setTxn s i none, fun _ _ => trivial⟩
  | commit ht' =>
    obtain rfl := Option.some.inj (ht.symm.trans ht')
    obtain ⟨hinv, hrely⟩ := hi.commit ht hgood'
    exact ⟨hinv, fun j hj => hrely j (by simpa using hj.symm), fun _ _ => trivial⟩
  | commitSent e k ht' hk =>
    obtain rfl := Option.some.inj (ht.symm.trans ht')
    refine ⟨hi.leave ht k hgood', fun j hj => ?_, fun _ _ => trivial⟩
    refine (others_setTxn s i none j hj).trans _ _ _ _ ⟨rfl, ?_, fun _ _ _ _ => rfl⟩
    exact MonitorSystem.txns_setTxn_ne _ (by simp) _

/-! ### Before the lock -/

/-- A statement outside of the transaction that leaves each log in a good state. -/
theorem Inv.store (hi : Inv monitors s) {witness : WitnessDb H}
    (hparts : ∀ origin,
      PartGood origin (({ s.db with witness := witness } : MonitorDb H).part origin))
    (hlocked : ∀ owner txn origin, s.txns owner = some txn → origin ∈ txn.locked →
      witness.rows origin = s.db.witness.rows origin) :
    Inv monitors { s with db := { s.db with witness := witness } } ∧
      Others i s { s with db := { s.db with witness := witness } } := by
  have hsame : ∀ owner txn origin, s.txns owner = some txn → origin ∈ txn.locked →
      ({ s.db with witness := witness } : MonitorDb H).part origin = s.db.part origin := by
    intro owner txn origin ht ho
    rw [MonitorDb.part, MonitorDb.part, hlocked owner txn origin ht ho]
  refine ⟨⟨hparts, hi.apart, hi.covered, fun k txn ht o ho => ?_, hi.answers⟩,
    fun j _ => ⟨rfl, rfl, fun txn ht o ho => hsame _ txn o ht ho⟩⟩
  have hgood := hi.orphans k txn ht o ho
  rw [part_view] at hgood ⊢
  rwa [hsame _ txn o ht ho]

omit [DecodeErrors] [EntryJson] in
theorem contentRows_nil (origin : Str) : contentRows origin [] = [] := rfl

omit [DecodeErrors] [Hasher] in
theorem CondaLog.nil : CondaLog [] [] := ⟨rfl, List.nodup_nil, by simp⟩

/-- The first row of a log is that of the empty tree, for which there are no rows of content. -/
theorem Inv.insertInitial (hi : Inv monitors s) (o origin : Str) :
    PartGood origin
      (({ s.db with witness := s.db.witness.insertInitial o } : MonitorDb H).part origin) := by
  rw [WitnessDb.insertInitial]
  cases hrow : s.db.witness.rows o with
  | some row => exact hi.parts origin
  | none =>
    have hput := part_put s.db o origin ⟨0, emptyRootHash, []⟩
    change PartGood origin ((s.db.write (.state o ⟨0, emptyRootHash, []⟩)).part origin)
    rw [hput]
    split_ifs with ho
    · subst ho
      have hgood := hi.parts o
      rw [PartGood, MonitorDb.part, hrow] at hgood
      refine ⟨[], [], rfl, Nat.zero_le _, mth_empty.symm, .nil, ?_⟩
      change ((s.db.part o).content).Perm _
      rw [MonitorDb.part, show (s.db.content.filter fun row => row.origin = o) = [] from hgood,
        contentRows_nil]
    · exact hi.parts origin

omit [DecodeErrors] [EntryJson] [Hasher] [Sha256Hash H] in
theorem onDatabase_bind (p : Witness.Store H ε α) (f : α → Witness.Store H ε β) :
    onDatabase (p.bind f) = (onDatabase p).bind fun a => onDatabase (f a) :=
  Prog.translate_bind _ p f

omit [DecodeErrors] [EntryJson] [Hasher] [Sha256Hash H] in
theorem onDatabase_mapErr (f : ε → δ) (p : Witness.Store H ε α) :
    onDatabase (p.mapErr f) = (onDatabase p).mapErr f := by
  induction p with
  | pure a => rfl
  | fail e => rfl
  | op o k ih =>
    change (Prog.op _ fun r => _) = Prog.op _ fun r => _
    congr 1
    funext r
    exact ih r

omit [DecodeErrors] [EntryJson] [Hasher] [Sha256Hash H] in
theorem onDatabase_ofExcept (x : Except ε α) :
    onDatabase (Prog.ofExcept x : Witness.Store H ε α) = Prog.ofExcept x := by
  cases x with
  | ok a => rfl
  | error e => rfl

/-- A statement of its own that reads or inserts. -/
theorem runs_store (o : StoreOp H) {ε' : Type} (ho : o.Answer H = Except ε' α) {P : α → Prop}
    (h : ∀ s : MonitorSystem H, Inv monitors s → ∀ r witness, StoreExec s.db.witness o r witness →
      (∀ origin, PartGood origin (({ s.db with witness := witness } : MonitorDb H).part origin)) ∧
        ∀ a, ho ▸ r = (.ok a : Except ε' α) → P a) (s : MonitorSystem H) :
    Runs monitors i ((Prog.call (MonitorOp.store o)).bind fun r =>
      Prog.ofExcept (ho ▸ r : Except ε' α)) (fun a _ => P a) s := by
  refine runs_bind
    (runs_call (J := fun _ => True) (P := fun r _ => ∀ a, ho ▸ r = (.ok a : Except ε' α) → P a)
    (fun _ _ _ _ => trivial) ?_ trivial) fun r s hr => runs_ofExcept hr
  intro s _ hi r s' he
  cases he with
  | store hexec hlocked =>
    obtain ⟨hparts, hvalue⟩ := h s hi r _ hexec
    obtain ⟨hinv, hothers⟩ := hi.store (i := i) hparts hlocked
    exact ⟨hinv, hothers, hvalue⟩

/-- A state of a log that was read. -/
structure ReadState (origin : Str) (state : WitnessedState H) : Prop where
  origin : state.origin = origin
  bound : state.size ≤ i64Max

theorem Inv.readState (hi : Inv monitors s) {origin : Str} {state : WitnessedState H}
    (h : s.db.witness.get origin = some state) :
    ReadState origin state := by
  obtain ⟨row, hrow, rfl⟩ := Option.map_eq_some_iff.mp h
  have hgood := hi.parts origin
  rw [PartGood, MonitorDb.part, hrow] at hgood
  obtain ⟨log, entries, hbacked⟩ := hgood
  refine ⟨rfl, ?_⟩
  change asU64 row.size ≤ i64Max
  rw [hbacked.size, Storage.asU64_natCast hbacked.bound]
  exact hbacked.bound

theorem runs_get (origin : Str) (s : MonitorSystem H) :
    Runs monitors i (onDatabase (Witness.WitnessStateStore.get origin))
    (fun state _ => ∀ st, state = some st → ReadState origin st) s := by
  rw [Witness.WitnessStateStore.get, onDatabase_bind]
  simp only [onDatabase_ofExcept]
  refine runs_store (.get origin) rfl ?_ s
  intro s hi r witness hexec
  cases hexec with
  | get =>
    refine ⟨hi.parts, fun state hstate st hst => ?_⟩
    obtain rfl := Except.ok.inj hstate
    exact hi.readState hst
  | getFault => exact ⟨hi.parts, fun _ h => by cases h⟩

theorem runs_getOrInit (origin : Str) (s : MonitorSystem H) :
    Runs monitors i (onDatabase (WitnessStateStore.getOrInit origin))
      (fun state _ => ReadState origin state) s := by
  rw [WitnessStateStore.getOrInit, Prog.bind_eq, onDatabase_bind]
  refine runs_bind (runs_get origin s) fun state s h => ?_
  cases state with
  | some state => exact h state rfl
  | none =>
    dsimp only
    rw [Prog.bind_eq, onDatabase_bind]
    refine runs_bind (P := fun _ _ => True) ?_ fun _ s _ => ?_
    · rw [Witness.WitnessStateStore.insertInitial, onDatabase_bind]
      simp only [onDatabase_ofExcept]
      refine runs_store (.insertInitial origin) rfl ?_ s
      intro s hi r witness hexec
      cases hexec with
      | insertInitial => exact ⟨hi.insertInitial origin, fun _ _ => trivial⟩
      | insertFault => exact ⟨hi.parts, fun _ _ => trivial⟩
    · rw [Prog.bind_eq, onDatabase_bind]
      refine runs_bind (runs_get origin s) fun state s h => ?_
      cases state with
      | some state => exact h state rfl
      | none => trivial

/-- The row of the log is locked, and it is the one that was read. -/
structure LockedAt (i : ℕ) (expected : WitnessedState H) (memory : CondaMonitor) (part : LogPart H)
    (row : StateRow H) (s : MonitorSystem H) : Prop where
  holds : Holds i expected.origin memory part s
  row_eq : part.row = some row
  size : row.size = expected.size
  root : row.rootHash = expected.rootHash
  good : PartGood expected.origin part

theorem runs_begin (s : MonitorSystem H) : Runs monitors i (perform databaseError .begin rfl)
    (fun _ s => s.txns (.process i) = some ⟨[], []⟩) s := by
  refine runs_perform (J := fun _ => True) (fun _ _ _ _ => trivial) ?_ trivial
  intro s _ hi r s' he
  cases he with
  | begin => exact ⟨hi.setTxn (fun _ h => by cases h) (fun _ h => by cases h), others_setTxn s i _,
      fun _ _ => s.txns_setTxn_self _ _⟩
  | beginFault e => exact ⟨hi, fun j _ => .refl j _, fun _ h => by cases h⟩

theorem runs_lock {expected : WitnessedState H} (hbound : expected.size ≤ i64Max)
    (hs : s.txns (.process i) = some ⟨[], []⟩) :
    Runs monitors i (perform internal (.lockMatching expected) rfl)
      (fun locked s => locked = true → ∃ memory part row, LockedAt i expected memory part row s)
        s := by
  refine runs_perform (fun _ _ h hrely => hrely.txn.trans h) ?_ hs
  intro s hs hi r s' he
  cases he with
  | lockStale => exact ⟨hi, fun j _ => .refl j _, fun _ h hl => by cases h; cases hl⟩
  | lockFault e => exact ⟨hi, fun j _ => .refl j _, fun _ h => by cases h⟩
  | lock ht hfree hm =>
    obtain rfl := Option.some.inj (hs.symm.trans ht)
    refine ⟨hi.setTxn (fun _ h => by cases h) ?_, others_setTxn s i _, fun _ _ _ => ?_⟩
    · intro o ho
      rw [List.mem_singleton.mp ho]
      exact hfree
    · obtain ⟨row, hrow, hsize, hroot⟩ := hm
      refine ⟨s.memory i, s.db.part expected.origin, row, ⟨rfl, _, s.txns_setTxn_self _ _, ?_, rfl⟩,
        hrow, ?_, hroot, hi.parts expected.origin⟩
      · intro o
        simp
      · rw [hsize, Storage.asI64_natCast hbound]

end Siglog.Monitor
