import Siglog.Monitor.AddCheckpoint

/-! A process that is alone with the database, where nothing fails: what its operations
answer is a function of the state. -/

namespace Siglog.Monitor

open Concurrent (Prog)
open Concurrent.Sys (runAlone)
open Storage (asI64 asU64)
open Text (Str)

/-- The database, the transaction of the process and its memory. -/
structure Solo (H : Type) where
  db : MonitorDb H
  txn : Option (Txn H)
  memory : CondaMonitor

namespace Solo

variable {H : Type}

def init : Solo H := ⟨.empty, none, .new⟩

/-- The system with that process only. -/
def system (s : Solo H) : MonitorSystem H :=
  ⟨s.db, Function.update (fun _ => none) (.process 0) s.txn,
    Function.update (fun _ => .new) 0 s.memory, []⟩

theorem system_init : (init : Solo H).system = .init := by
  rw [system, init, Function.update_eq_self_iff.mpr rfl, Function.update_eq_self_iff.mpr rfl]
  rfl

theorem txns_system (s : Solo H) : s.system.txns (.process 0) = s.txn := by
  simp [system]

theorem memory_system (s : Solo H) : s.system.memory 0 = s.memory := by
  simp [system]

theorem setTxn_system (s : Solo H) (txn : Option (Txn H)) :
    s.system.setTxn (.process 0) txn = { s with txn := txn }.system := by
  simp [system, MonitorSystem.setTxn]

theorem setMemory_system (s : Solo H) (memory : CondaMonitor) :
    s.system.setMemory 0 memory = { s with memory := memory }.system := by
  simp [system, MonitorSystem.setMemory]

theorem free_system (s : Solo H) (origin : Str) : s.system.Free (.process 0) origin := by
  intro other txn hne h
  simp [system, Function.update_of_ne hne] at h

variable [Sha256Hash H] [DecidableEq H]

/-- What is answered, at the time `clock`, when a URL is answered by `web`. -/
def answer (clock : UInt64) (web : Str → Except String Bytes) (s : Solo H) :
    (o : MonitorOp H) → o.Answer H × Solo H
  | .store (.get origin) => (.ok (s.db.witness.get origin), s)
  | .store (.insertInitial origin) =>
    match s.txn with
    | none => (.ok (), { s with db := { s.db with witness := s.db.witness.insertInitial origin } })
    | some _ => (.error (.internal "transaction open"), s)
  | .store (.updateMatching _ _ _ _) => (.error (.internal "not in a transaction"), s)
  | .store .now => (.ok clock, s)
  | .begin =>
    match s.txn with
    | none => (.ok (), { s with txn := some ⟨[], []⟩ })
    | some _ => (.error "transaction open", s)
  | .lockMatching expected =>
    match s.txn with
    | none => (.error (.internal "no transaction"), s)
    | some txn =>
      if (txn.view s.db).witness.Matching expected then
        (.ok true, { s with txn := some { txn with locked := expected.origin :: txn.locked } })
      else (.ok false, s)
  | .updateMatching expected size rootHash checkpoint =>
    match s.txn with
    | none => (.error (.internal "no transaction"), s)
    | some txn =>
      if (txn.view s.db).witness.Matching expected then
        let write := Write.state expected.origin ⟨size, rootHash, checkpoint⟩
        (.ok true, { s with txn := some ⟨expected.origin :: txn.locked, txn.writes ++ [write]⟩ })
      else (.ok false, s)
  | .loadRows indexName origin =>
    match s.txn with
    | none => (.error (.internal "no transaction"), s)
    | some txn =>
      (.ok ((txn.view s.db).content.filter fun row => row.indexName = indexName ∧
        row.origin = origin), s)
  | .insertRow row =>
    match s.txn with
    | none => (.error (.internal "no transaction"), s)
    | some txn =>
      (.ok (), { s with txn := some { txn with writes := txn.writes ++ [.content row] } })
  | .commit =>
    match s.txn with
    | none => (.error "no transaction", s)
    | some txn => (.ok (), { s with txn := none, db := txn.view s.db })
  | .rollback => (.ok (), { s with txn := none })
  | .drop => ((), { s with txn := none })
  | .index which o =>
    (((s.memory.get which).answer o).1,
      { s with memory := s.memory.set which ((s.memory.get which).answer o).2 })
  | .client .build => (.ok (), s)
  | .client (.get url) => (web url, s)

/-- It is what the system may answer. -/
theorem exec_answer (clock : UInt64) (web : Str → Except String Bytes) (s : Solo H)
    (o : MonitorOp H) :
    Exec 0 s.system o (s.answer clock web o).1 (s.answer clock web o).2.system := by
  obtain ⟨db, txn, memory⟩ := s
  have ht := txns_system (⟨db, txn, memory⟩ : Solo H)
  cases o with
  | store o =>
    cases o with
    | get origin => exact .store (.get _ _) fun _ _ _ _ _ => rfl
    | insertInitial origin =>
      cases txn with
      | none =>
        refine .store (.insertInitial _ _ _) fun owner txn _ h _ => ?_
        simp [system] at h
      | some txn => exact .store (.insertFault _ _ _) fun _ _ _ _ _ => rfl
    | updateMatching expected size rootHash checkpoint =>
      exact .store (.updateFault _ _ _ _ _ _) fun _ _ _ _ _ => rfl
    | now => exact .store (.now _ _) fun _ _ _ _ _ => rfl
  | begin =>
    cases txn with
    | none => exact setTxn_system _ _ ▸ .begin ht
    | some txn => exact .beginFault _
  | lockMatching expected =>
    cases txn with
    | none => exact .lockFault _
    | some txn =>
      dsimp only [answer]
      split_ifs with h
      · have hexec := Exec.lock ht (free_system _ _) h
        rw [setTxn_system] at hexec
        exact hexec
      · exact .lockStale ht h
  | updateMatching expected size rootHash checkpoint =>
    cases txn with
    | none => exact .updateFault _
    | some txn =>
      dsimp only [answer]
      split_ifs with h
      · have hexec : Exec 0 _ (.updateMatching expected size rootHash checkpoint) _ _ :=
          .update ht (free_system _ _) h
        rw [setTxn_system] at hexec
        exact hexec
      · exact .updateStale ht h
  | loadRows indexName origin =>
    cases txn with
    | none => exact .loadFault _
    | some txn => exact .loadRows ht
  | insertRow row =>
    cases txn with
    | none => exact .insertFault _
    | some txn => exact setTxn_system _ _ ▸ .insert ht (.ok ())
  | commit =>
    cases txn with
    | none =>
      have hexec :=
        Exec.commitFault (i := 0) (s := (⟨db, none, memory⟩ : Solo H).system) "no transaction"
      rw [setTxn_system] at hexec
      exact hexec
    | some txn =>
      have hexec := Exec.commit ht
      rw [setTxn_system] at hexec
      exact hexec
  | rollback => exact setTxn_system _ _ ▸ .rollback _
  | drop => exact setTxn_system _ _ ▸ .drop
  | index which o =>
    have hexec := Exec.index (i := 0) (s := (⟨db, txn, memory⟩ : Solo H).system) which o
    rw [memory_system, setMemory_system] at hexec
    exact hexec
  | client o =>
    cases o with
    | build => exact .client _ _
    | get url => exact .client _ _

/-- The process runs its program to the end. -/
theorem reaches {ε α : Type} (clock : UInt64) (web : Str → Except String Bytes)
    (p : Prog (MonitorOp H) (MonitorOp.Answer H) ε α) (s : Solo H) :
    Prog.Reaches (Exec 0) p s.system (Prog.ofExcept (runAlone (answer clock web) p s).1)
      (runAlone (answer clock web) p s).2.system := by
  induction p generalizing s with
  | pure a => exact .refl _ _
  | fail e => exact .refl _ _
  | op o k ih => exact .op (exec_answer clock web s o) (ih _ _)

end Solo

end Siglog.Monitor
