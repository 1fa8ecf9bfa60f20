import Siglog.Sequencer.Invariant
import Siglog.Worker.BundleGroups
import Siglog.Worker.CycleCalls

/-! Sequencing loses and duplicates nothing, over whole runs. Of an integration cycle
only this matters: whatever the object store answers, it marks as many entries as
it has read. -/

namespace Siglog.Sequencer

open Concurrent (Prog)
open Storage (Op Server PendingEntry toPending perform asU64 pendingRows)
open Merkle (MapOrder TileKey HashTile TreeBuilder)

variable {H : Type} [Sha256Hash H]

/-! ### Integration cycles -/

/-- The only mark that the rest of a cycle makes. -/
def Marks (n k : ℕ) (o : Op H) : Prop := ∀ expected newSize root,
  o = .markIntegratedIfCurrent expected newSize root → expected = n ∧ newSize = n + k

section

variable {n k : ℕ}

omit [Sha256Hash H] in
theorem marks_common : Worker.Common (Marks n k : Op H → Prop) := by
  constructor
  all_goals intros; rintro _ _ _ ⟨⟩

theorem size_foldl_append (leaves : List H) (b : TreeBuilder H) :
    (leaves.foldl TreeBuilder.append b).size = b.size + leaves.length := by
  induction leaves generalizing b with
  | nil => rfl
  | cons leaf leaves ih =>
    rw [List.foldl_cons, ih, TreeBuilder.append, List.length_cons]
    dsimp only
    omega

/-- Whatever the tiles hold, integration counts the leaves it was given. -/
theorem integrate_newSize (order : MapOrder H) (n : ℕ) (leaves : List H) :
    (Merkle.integrate order n leaves).Returns (fun _ _ => True) fun x => ∀ r, x = .ok r →
    r.newSize = n + leaves.length := by
  have hany : ∀ {β : Type} (p : Merkle.TileReader H β), p.Returns (fun _ _ => True) fun x => ∀ a,
      x = .ok a → True :=
    fun p => Prog.returns_any p fun _ _ _ => trivial
  rw [Merkle.integrate]
  split_ifs with h0
  · subst h0
    rintro r ⟨⟩
    rfl
  · rintro r ⟨⟩
  · refine Prog.returns_bind_any (P := fun b => b.size = n) ?_ (by rintro e r ⟨⟩) fun b hb => ?_
    · refine Prog.returns_bind_any (hany _) (by rintro e r ⟨⟩) fun range _ => ?_
      rintro b ⟨⟩
      rfl
    · refine Prog.returns_bind_any (hany _) (by rintro e r ⟨⟩) fun root _ => ?_
      refine Prog.returns_bind_any (hany _) (by rintro e r ⟨⟩) fun tiles _ => ?_
      rintro r ⟨⟩
      rw [← hb]
      exact size_foldl_append leaves b

/-- The rest of a cycle marks as many entries as it has read. -/
theorem integrateBatch_calls (order : MapOrder H) (vindex : Bool) (n : ℕ)
    (pending : List (PendingEntry H)) :
    (Worker.integrateBatch order vindex n pending).Calls (Marks n pending.length) := by
  rw [Worker.integrateBatch_eq]
  refine Prog.calls_bind (Prog.calls_translate (Worker.reader_calls marks_common.read) _)
    (Prog.returns_translate_any (integrate_newSize order n _)) fun result hresult => ?_
  rw [List.length_map] at hresult
  refine Worker.storeBatch_calls marks_common order vindex n pending result (fun e _ => ?_) ?_
  · rintro _ _ _ ⟨⟩
  · rintro expected newSize root ⟨⟩
    exact ⟨rfl, hresult⟩

end

section

variable {s : SequencerSystem H} {α : Type}

/-- An operation that makes no wrong mark. -/
theorem Inv.exec {n k : ℕ} {o : Op H} (ho : Marks n k o) {s : SequencerSystem H}
    (hk : n + k ≤ s.next) (h : Inv s)
    {r : o.Answer H} {s' : SequencerSystem H} (he : Exec s o r s') : Inv s' ∧ Le s s' := by
  cases he with
  | quiet => exact ⟨h, .refl _⟩
  | fault => exact ⟨h, .refl _⟩
  | getLogState => exact ⟨h, .refl _⟩
  | getPendingEntries => exact ⟨h, .refl _⟩
  | mark =>
    rename_i hm hr
    obtain ⟨rfl, rfl⟩ := ho _ _ _ rfl
    exact h.mark hk hm
  | markError => exact ⟨h, .refl _⟩

/-- The program keeps the invariant. -/
def Runs (p : Server H α) (s : SequencerSystem H) : Prop :=
  p.Safe Exec Inv Le Le (fun _ _ => True) s

theorem runs_of_calls {p : Server H α} {n k : ℕ} (hp : p.Calls (Marks n k)) (hk : n + k ≤ s.next) :
    Runs p s := by
  refine Prog.safe_weaken (fun _ _ _ => trivial) (Prog.safe_of_calls (J := fun s => n + k ≤ s.next)
    (fun _ _ h hle => h.trans hle.next) (fun o ho s hk hi r s' he => ?_) hp hk)
  obtain ⟨hi', hle⟩ := hi.exec ho hk he
  exact ⟨hi', hle, hk.trans hle.next⟩

/-- An operation that reads. -/
theorem runs_read {o : Op H} {f : Op.Result H o → Server H α}
    (h : ∀ s₁, Le s s₁ → Inv s₁ → ∀ r s₂, Exec s₁ o r s₂ → s₂ = s₁ ∧
      ∀ a, r = .ok a → Runs (f a) s₁) :
    Runs ((perform o).bind f) s := by
  intro s₁ hle hi r s₂ he
  obtain ⟨rfl, hr⟩ := h s₁ hle hi r s₂ he
  refine ⟨hi, .refl _, ?_⟩
  cases r with
  | ok a => exact hr a rfl
  | error e => trivial

/-- A batch that passes the check continues the tree. -/
theorem checkContiguous_ok {n m : ℕ} {E : List (Entry H)} (hE : E ≠ [])
    (h : Worker.checkContiguous n (toPending m E) = .ok ()) : n = m := by
  obtain ⟨entry, E, rfl⟩ := List.exists_cons_of_ne_nil hE
  rw [toPending, Worker.checkContiguous] at h
  split_ifs at h with hne
  exact (not_not.mp hne).symm

/-- The cycle after it has read the pending entries. -/
theorem integratePending_runs (order : MapOrder H) (vindex : Bool) {n m : ℕ} {E : List (Entry H)}
    {pending : List (PendingEntry H)} (hp : pending = toPending m E) (hle : m + E.length ≤ s.next) :
    Runs (if pending = [] then .pure () else do
      Prog.ofExcept (Worker.checkContiguous n pending)
      Worker.integrateBatch order vindex n pending) s := by
  subst hp
  split_ifs with hE
  · trivial
  rw [Worker.toPending_eq_nil] at hE
  rcases hcheck : Worker.checkContiguous n (toPending m E) with e | u
  · trivial
  · obtain rfl := checkContiguous_ok hE hcheck
    refine runs_of_calls (integrateBatch_calls order vindex _ _) ?_
    rwa [Worker.length_toPending]

theorem runIntegrationCycle_runs (order : MapOrder H) (batchSize : ℕ) (vindex : Bool)
    (s : SequencerSystem H) :
    Runs (Worker.runIntegrationCycle order batchSize vindex) s := by
  refine runs_read fun s₁ _ hi₁ r s₂ he => ?_
  cases he with
  | quiet => rename_i hq; exact hq.elim
  | fault => exact ⟨rfl, by rintro a ⟨⟩⟩
  | getLogState =>
    refine ⟨rfl, ?_⟩
    rintro _ ⟨⟩
    rcases Storage.LogState.pendingCount s₁.db.getLogState with e | count
    · trivial
    rw [Prog.ofExcept_ok, Prog.bind_eq, Prog.pure_bind]
    split_ifs
    · trivial
    refine runs_read fun s₃ hle hi₃ r s₄ he => ?_
    cases he with
    | quiet => rename_i hq; exact hq.elim
    | fault => exact ⟨rfl, by rintro a ⟨⟩⟩
    | getPendingEntries =>
      refine ⟨rfl, ?_⟩
      rintro _ ⟨⟩
      refine integratePending_runs order vindex (hi₃.db.getPendingEntries hle.size batchSize) ?_
      have hnext := hi₃.next_eq
      rw [List.length_take]
      omega

end

/-! ### Runs -/

/-- What sequencing promises of a state. -/
structure Sequenced (s : SequencerSystem H) : Prop where
  sizes : 0 ≤ s.db.logState.integratedSize ∧ s.db.logState.integratedSize ≤ s.db.logState.nextIndex
  pendingCount : ∃ count, s.db.getLogState.pendingCount = .ok count
  /-- The pending rows have exactly the indices from the integrated size to the next index. -/
  rows : s.db.pendingEntries.map (fun row => row.idx) =
    (List.range' s.db.logState.integratedSize.toNat
      (s.db.logState.nextIndex - s.db.logState.integratedSize).toNat).map fun i : ℕ => (i : ℤ)
  /-- An index that was answered holds the data and the leaf hash of its request. -/
  answered : ∀ (w : ℕ) (worker : SequencerWorker H) (req : SequenceRequest H) (i : ℕ),
    s.workers[w]? = some worker → (req, .ok i) ∈ worker.responses →
      (i : ℤ) < s.db.logState.nextIndex ∧ (s.db.logState.integratedSize ≤ i →
        (⟨i, req.entry.data, req.entry.leafHash⟩ : Storage.PendingRow H) ∈ s.db.pendingEntries)
  /-- A row belongs to a request that has been answered with its index or is about to be. -/
  source : ∀ row ∈ s.db.pendingEntries,
    ∃ (w : ℕ) (worker : SequencerWorker H) (req : SequenceRequest H) (i : ℕ),
    s.workers[w]? = some worker ∧ req ∈ worker.taken ∧ worker.Answers (req, i) ∧
      row = ⟨i, req.entry.data, req.entry.leafHash⟩
  /-- A request that was taken has one answer or waits in the batch. -/
  once : ∀ (w : ℕ) (worker : SequencerWorker H), s.workers[w]? = some worker →
    worker.taken = worker.responses.map Prod.fst ++ worker.batch ∧
    (worker.taken.map fun req => req.id).Nodup ∧
      (worker.control = .exited → worker.batch = [])
  distinct : ∀ (w w' k k' : ℕ) (worker worker' : SequencerWorker H) (req req' : SequenceRequest H)
    (i : ℕ),
    s.workers[w]? = some worker → s.workers[w']? = some worker' →
    worker.responses[k]? = some (req, .ok i) →
      worker'.responses[k']? = some (req', .ok i) → w = w' ∧ k = k'

/-- If the step is a call of `sequence_entries` that fails, it changes nothing. -/
def FailureKeeps (s s' : SequencerSystem H) : Prop :=
  ∀ (w : ℕ) (worker worker' : SequencerWorker H) (e : Error) (closing closing' : Bool),
    s.workers[w]? = some worker → worker.control = .flushing closing →
      s'.workers[w]? = some worker' → worker'.control = .responding (.error e) closing' →
        s'.db.logState = s.db.logState ∧ s'.db.pendingEntries = s.db.pendingEntries ∧
          s'.db.rekorEntries = s.db.rekorEntries

section

variable {s s' : SequencerSystem H}

theorem failureKeeps_of_db (h : s'.db = s.db) : FailureKeeps s s' := by
  intro _ _ _ _ _ _ _ _ _ _
  rw [h]
  exact ⟨rfl, rfl, rfl⟩

/-- A step that is not a failed call. -/
theorem failureKeeps_of_workers
    (h : ∀ (w : ℕ) (worker worker' : SequencerWorker H) (closing : Bool),
    s.workers[w]? = some worker → worker.control = .flushing closing →
    s'.workers[w]? = some worker' →
      ∀ e closing', worker'.control ≠ .responding (.error e) closing') : FailureKeeps s s' :=
  fun w worker worker' e closing closing' hw hc hw' hc' =>
    absurd hc' (h w worker worker' closing hw hc hw' e closing')

theorem failureKeeps_of_same (h : s'.workers = s.workers) : FailureKeeps s s' := by
  apply failureKeeps_of_workers
  intro w worker worker' closing hw hc hw' e closing'
  rw [h, hw] at hw'
  obtain rfl := Option.some.inj hw'
  simp [hc]

theorem failureKeeps_env [DecidableEq H] (he : Env s s') : FailureKeeps s s' := by
  cases he with
  | spawn => exact failureKeeps_of_db rfl
  | worker => exact failureKeeps_of_db rfl
  | commit v worker₀ closing₀ answers db hv hc₀ hseq =>
    apply failureKeeps_of_workers
    intro w worker worker' closing hw hc hw' e closing'
    change (s.workers.set v _)[w]? = some worker' at hw'
    by_cases hvw : v = w
    · subst hvw
      rw [List.getElem?_set_self (List.getElem?_eq_some_iff.mp hw).1] at hw'
      obtain rfl := Option.some.inj hw'
      simp [SequencerWorker.sequenced]
    · rw [List.getElem?_set_ne hvw, hw] at hw'
      obtain rfl := Option.some.inj hw'
      simp [hc]
  | rollback => exact failureKeeps_of_db rfl
  | fault => exact failureKeeps_of_db rfl
  | insertMode => exact failureKeeps_of_same rfl
  | importLog => exact failureKeeps_of_same rfl
  | importAbort => exact failureKeeps_of_db rfl

theorem failureKeeps_exec {o : Op H} {r : o.Answer H} (he : Exec s o r s') : FailureKeeps s s' := by
  cases he with
  | quiet => exact failureKeeps_of_db rfl
  | fault => exact failureKeeps_of_db rfl
  | getLogState => exact failureKeeps_of_db rfl
  | getPendingEntries => exact failureKeeps_of_db rfl
  | mark => exact failureKeeps_of_same rfl
  | markError => exact failureKeeps_of_db rfl

/-- The request at a place of the answers is the one taken at that place. -/
theorem WorkerInv.id_of_response {assigned : List (SequenceRequest H × ℕ)} {w k : ℕ}
    {worker : SequencerWorker H}
    (h : WorkerInv assigned w worker) {req : SequenceRequest H} {r : Response}
    (hk : worker.responses[k]? = some (req, r)) :
    req.id = (w, k) := by
  have hlt := (List.getElem?_eq_some_iff.mp hk).1
  apply h.ids
  rw [SequencerWorker.received, h.taken, List.append_assoc,
    List.getElem?_append_left (by rwa [List.length_map]), List.getElem?_map, hk]
  rfl

/-- The row of an index that was assigned and is not integrated. -/
theorem Inv.row_of_assigned (h : Inv s) {req : SequenceRequest H} {i : ℕ}
    (ha : (req, i) ∈ s.assigned) :
    i < s.next ∧ (s.size ≤ i →
      (⟨i, req.entry.data, req.entry.leafHash⟩ : Storage.PendingRow H) ∈ s.db.pendingEntries) := by
  obtain ⟨j, hj⟩ := List.mem_iff_getElem?.mp ha
  have hlt := (List.getElem?_eq_some_iff.mp hj).1
  have hi : i = s.imported + j := by
    have hsnd : (s.assigned.map Prod.snd)[j]? = some i := by rw [List.getElem?_map, hj]; rfl
    rw [h.indices, List.getElem?_range' hlt, Option.some.injEq] at hsnd
    omega
  subst hi
  refine ⟨by unfold SequencerSystem.next; omega, fun hle => ?_⟩
  have himp := h.imported_le
  have hget : s.pending[s.imported + j - s.size]? = some req.entry := by
    rw [SequencerSystem.pending, List.getElem?_map, List.getElem?_drop,
      show s.size - s.imported + (s.imported + j - s.size) = j by omega, hj]
    rfl
  have hmem := Storage.mem_rows_of_getElem s.size hget
  rw [show s.size + (s.imported + j - s.size) = s.imported + j by omega] at hmem
  rw [h.db.rows]
  exact hmem

theorem Inv.assigned_of_row (h : Inv s) {row : Storage.PendingRow H}
    (hrow : row ∈ s.db.pendingEntries) :
    ∃ req i, (req, i) ∈ s.assigned ∧ row = ⟨i, req.entry.data, req.entry.leafHash⟩ := by
  rw [h.db.rows] at hrow
  obtain ⟨j, entry, hj, rfl⟩ := Storage.mem_rows hrow
  rw [SequencerSystem.pending, List.getElem?_map, List.getElem?_drop] at hj
  obtain ⟨⟨req, i⟩, ha, rfl⟩ := Option.map_eq_some_iff.mp hj
  have hlt := (List.getElem?_eq_some_iff.mp ha).1
  have hi : i = s.size + j := by
    have hsnd : (s.assigned.map Prod.snd)[s.size - s.imported + j]? = some i := by
      rw [List.getElem?_map, ha]; rfl
    rw [h.indices, List.getElem?_range' hlt, Option.some.injEq] at hsnd
    have := h.imported_le
    omega
  exact ⟨req, i, List.mem_of_getElem? ha, by rw [hi]⟩

/-- No index is assigned to two requests. -/
theorem Inv.assigned_unique (h : Inv s) {req req' : SequenceRequest H} {i : ℕ}
    (ha : (req, i) ∈ s.assigned) (ha' : (req', i) ∈ s.assigned) : req = req' := by
  have hnodup : (s.assigned.map Prod.snd).Nodup := by
    rw [h.indices]
    exact List.nodup_range'
  exact congrArg Prod.fst (List.inj_on_of_nodup_map hnodup ha ha' rfl)

theorem Inv.sequenced (h : Inv s) : Sequenced s := by
  have hnext := h.next_eq
  have hb := h.db.bound
  have hnextIndex : s.db.logState.nextIndex = s.next := by rw [h.db.next, hnext]
  refine ⟨?_, ⟨s.next - s.size, ?_⟩, ?_, ?_, ?_, ?_, ?_⟩
  · rw [h.db.integrated, hnextIndex]
    omega
  · rw [Storage.LogState.pendingCount, Storage.Database.getLogState, hnextIndex, h.db.integrated,
      Storage.asU64_natCast (by omega), Storage.asU64_natCast (by omega), checkedSub,
      if_pos h.size_le]
  · rw [h.db.rows, Storage.map_idx_rows, hnextIndex, h.db.integrated, Int.toNat_natCast,
      show ((s.next : ℤ) - (s.size : ℤ)).toNat = s.pending.length by omega]
  · intro w worker req i hw hr
    obtain ⟨hlt, hrow⟩ := h.row_of_assigned ((h.workers w worker hw).responses req i hr)
    rw [hnextIndex, h.db.integrated]
    exact ⟨by omega, fun hle => hrow (by omega)⟩
  · intro row hrow
    obtain ⟨req, i, ha, rfl⟩ := h.assigned_of_row hrow
    obtain ⟨w, worker, hw, hanswers⟩ := h.source _ ha
    refine ⟨w, worker, req, i, hw, ?_, hanswers, rfl⟩
    rw [(h.workers w worker hw).taken, List.mem_append]
    rcases hanswers with hr | ⟨sequenced, closing, -, hr⟩
    · exact .inl (List.mem_map_of_mem (f := Prod.fst) hr)
    · obtain ⟨⟨req', answer⟩, hzip, heq⟩ := List.mem_filterMap.mp hr
      refine .inr ?_
      cases answer with
      | ok entry =>
        obtain ⟨rfl, -⟩ := Prod.mk.inj (Option.some.inj heq)
        exact (List.of_mem_zip hzip).1
      | error e => cases heq
  · intro w worker hw
    have hinv := h.workers w worker hw
    refine ⟨hinv.taken, ?_, hinv.exited⟩
    rw [List.nodup_iff_getElem?_ne_getElem?]
    intro k k' hlt hlen heq
    rw [List.length_map] at hlen
    have hid : ∀ j, j < worker.taken.length →
        (worker.taken.map fun req => req.id)[j]? = some (w, j) := by
      intro j hj
      rw [List.getElem?_map, List.getElem?_eq_getElem hj, Option.map_some, Option.some.injEq]
      apply hinv.ids
      rw [SequencerWorker.received, List.getElem?_append_left hj, List.getElem?_eq_getElem hj]
    rw [hid k (by omega), hid k' hlen] at heq
    have := congrArg Prod.snd (Option.some.inj heq)
    dsimp only at this
    omega
  · intro w w' k k' worker worker' req req' i hw hw' hk hk'
    have hinv := h.workers w worker hw
    have hinv' := h.workers w' worker' hw'
    have hreq := h.assigned_unique (hinv.responses req i (List.mem_of_getElem? hk))
      (hinv'.responses req' i (List.mem_of_getElem? hk'))
    have hid := hinv.id_of_response hk
    rw [hreq, hinv'.id_of_response hk'] at hid
    exact ⟨(congrArg Prod.fst hid).symm, (congrArg Prod.snd hid).symm⟩

end

variable [DecidableEq H]

def sequencerProof : (sequencerSys (H := H)).Proof where
  Inv := Inv
  le := Le
  Out _ _ _ := True
  refl := Le.refl
  trans := Le.trans
  stable _ _ _ _ _ _ := trivial
  env _ _ h he := h.env he
  start := by
    intro s t p _ hp
    cases hp with
    | cycle order batchSize vindex => exact runIntegrationCycle_runs order batchSize vindex s

/-- In every reachable state sequencing has lost and duplicated nothing, and the next
step changes nothing if it is a call of `sequence_entries` that fails. -/
theorem reachable_sequenced {p : SequencerPool H} (h : Reachable p) :
    Sequenced p.shared ∧ ∀ q, sequencerSys.Step p q → FailureKeeps p.shared q.shared := by
  refine ⟨(sequencerProof.reachable_inv Inv.init h).sequenced, fun q hq => ?_⟩
  cases hq with
  | env he => exact failureKeeps_env he
  | start => exact failureKeeps_of_db rfl
  | run he => exact failureKeeps_exec he
  | stop => exact failureKeeps_of_db rfl

/-- A worker that has answered its one request. -/
def answeredOne : SequencerSystem StartHash :=
  let req : SequenceRequest StartHash := ⟨(0, 0), .new [7]⟩
  ⟨⟨⟨1, 0, none⟩, pendingRows 0 [req.entry], [], none⟩,
    [⟨1, [], false, [], .select, [req], [(req, .ok 0)]⟩], 0, [(req, 0)]⟩

theorem answeredOne_reachable : Reachable (⟨answeredOne, []⟩ : SequencerPool StartHash) := by
  let entry : Entry StartHash := .new [7]
  let req : SequenceRequest StartHash := ⟨(0, 0), entry⟩
  let fresh : SequencerWorker StartHash := .new 1
  let asked := fresh.send 0 entry
  let full := asked.recv req []
  let state (worker : SequencerWorker StartHash) : SequencerSystem StartHash :=
    { SequencerSystem.init with workers := [worker] }
  have hseq : (state full).db.sequenceEntries (full.batch.map fun req => req.entry) =
      .ok ([.ok ⟨0, entry⟩], answeredOne.db) := by decide +kernel
  have h₁ : Env SequencerSystem.init (state fresh) := .spawn _ 1
  have h₂ : Env (state fresh) (state asked) := .worker _ 0 fresh asked rfl (.send fresh entry rfl)
  have h₃ : Env (state asked) (state full) :=
    .worker _ 0 asked full rfl (.recv asked req [] rfl rfl)
  have h₄ := Env.commit (state full) 0 full false _ _ rfl rfl hseq
  let answering := full.sequenced (.ok [.ok ⟨0, entry⟩]) false
  have h₅ := Env.worker ((state full).commit 0 full false [.ok ⟨0, entry⟩] answeredOne.db) 0
    answering _ rfl
    (.respond answering _ false rfl)
  exact ((((Relation.ReflTransGen.refl.tail (.env h₁)).tail (.env h₂)).tail (.env h₃)).tail
    (.env h₄)).tail (.env h₅)

theorem reachable_sequenced_one : Sequenced answeredOne :=
  (reachable_sequenced answeredOne_reachable).1

end Siglog.Sequencer
