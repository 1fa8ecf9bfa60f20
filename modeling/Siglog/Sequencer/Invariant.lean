import Siglog.Sequencer.Queue

/-! The invariant of sequencing. The rows of the database, the requests that were given
an index and the requests that each worker has taken and answered stay in step,
whatever the order of transactions. -/

namespace Siglog.Sequencer

open Storage (Database SequencedEntry DbOf accepted indices pendingRows asU64)

variable {H : Type} [Sha256Hash H]

/-! ### Answers of one batch -/

theorem mem_assignments {batch : List (SequenceRequest H)}
    {sequenced : List (Except Error (SequencedEntry H))}
    {req : SequenceRequest H} {i : ℕ} :
    (req, i) ∈ assignments batch sequenced ↔
    (req, .ok i) ∈ SequencerWorker.answers batch (.ok sequenced) := by
  rw [assignments, SequencerWorker.answers, List.mem_filterMap, List.mem_map]
  refine exists_congr fun x => and_congr_right fun _ => ?_
  rcases x with ⟨req', e | entry⟩
  · simp [Except.map]
  · simp [Except.map]

theorem map_fst_answers {batch : List (SequenceRequest H)} {result : SequenceResult H}
    (h : ∀ sequenced, result = .ok sequenced → sequenced.length = batch.length) :
    (SequencerWorker.answers batch result).map Prod.fst = batch := by
  cases result with
  | ok sequenced =>
    have hfst : (fun x : SequenceRequest H × Except Error (SequencedEntry H) =>
        (x.1, x.2.map fun entry => entry.index).1) = Prod.fst := rfl
    rw [SequencerWorker.answers, List.map_map]
    exact List.map_fst_zip (h sequenced rfl).ge
  | error e => simp [SequencerWorker.answers, Function.comp_def]

section

variable {batch : List (SequenceRequest H)} {answers : List (Except Error (SequencedEntry H))}

theorem map_snd_assignments (h : answers.length = batch.length) :
    (assignments batch answers).map Prod.snd = indices answers := by
  induction batch generalizing answers with
  | nil =>
    obtain rfl := List.length_eq_zero_iff.mp h
    rfl
  | cons req batch ih =>
    obtain ⟨answer, answers, rfl⟩ := List.exists_cons_of_length_eq_add_one h
    have : (assignments batch answers).map Prod.snd = indices answers := ih (by simpa using h)
    cases answer with
    | ok entry => simpa [assignments, indices] using this
    | error e => simpa [assignments, indices] using this

theorem map_entry_assignments
    (h : List.Forall₂ (fun entry answer => ∀ s, answer = Except.ok s → s.entry = entry)
      (batch.map fun req => req.entry) answers) :
    (assignments batch answers).map (fun a => a.1.entry) = accepted answers := by
  induction batch generalizing answers with
  | nil =>
    cases h
    rfl
  | cons req batch ih =>
    cases h with
    | cons hreq hrest =>
      rename_i answer answers
      have := ih hrest
      cases answer with
      | ok entry =>
        have heq : entry.entry = req.entry := hreq entry rfl
        simpa [assignments, accepted, heq] using this
      | error e => simpa [assignments, accepted] using this

end

/-! ### One worker -/

/-- The worker has answered the request with the index, or is about to. -/
def SequencerWorker.Answers (worker : SequencerWorker H) (a : SequenceRequest H × ℕ) : Prop :=
  (a.1, .ok a.2) ∈ worker.responses ∨
    ∃ sequenced closing, worker.control = .responding (.ok sequenced) closing ∧
      a ∈ assignments worker.batch sequenced

structure WorkerInv (assigned : List (SequenceRequest H × ℕ)) (w : ℕ) (worker : SequencerWorker H) :
    Prop where
  ids : ∀ (k : ℕ) (req : SequenceRequest H), worker.received[k]? = some req → req.id = (w, k)
  taken : worker.taken = worker.responses.map Prod.fst ++ worker.batch
  responses : ∀ req i, (req, .ok i) ∈ worker.responses → (req, i) ∈ assigned
  responding : ∀ sequenced closing, worker.control = .responding (.ok sequenced) closing →
    sequenced.length = worker.batch.length ∧ ∀ a ∈ assignments worker.batch sequenced, a ∈ assigned
  exited : worker.control = .exited → worker.batch = []

section

variable {assigned assigned' : List (SequenceRequest H × ℕ)} {w : ℕ}
  {worker worker' : SequencerWorker H}

theorem WorkerInv.new (batchMaxSize : ℕ) : WorkerInv assigned w (.new batchMaxSize) := by
  refine ⟨?_, rfl, ?_, ?_, fun _ => rfl⟩
  · intro k req h
    simp [SequencerWorker.received, SequencerWorker.new] at h
  · intro req i h
    simp [SequencerWorker.new] at h
  · rintro _ _ ⟨⟩

theorem WorkerInv.mono (h : WorkerInv assigned w worker) (hle : ∀ a ∈ assigned, a ∈ assigned') :
    WorkerInv assigned' w worker :=
  ⟨h.ids, h.taken, fun req i hr => hle _ (h.responses req i hr),
    fun sequenced closing hc => ⟨(h.responding sequenced closing hc).1,
      fun a ha => hle a ((h.responding sequenced closing hc).2 a ha)⟩, h.exited⟩

/-- A worker that neither answers nor exits keeps what it has answered. -/
theorem answers_of_control (worker worker' : SequencerWorker H)
    (hr : worker'.responses = worker.responses)
    (hc : ∀ result closing, worker.control ≠ .responding result closing) {a : SequenceRequest H × ℕ}
    (h : worker.Answers a) : worker'.Answers a := by
  rcases h with h | ⟨sequenced, closing, h, -⟩
  · exact .inl (hr ▸ h)
  · exact absurd h (hc _ _)

/-- The steps of a worker by itself keep its invariant. -/
theorem WorkerInv.step (h : WorkerInv assigned w worker) (hs : worker.Step w worker') :
    WorkerInv assigned w worker' ∧ ∀ a, worker.Answers a → worker'.Answers a := by
  cases hs with
  | send entry hopen =>
    refine ⟨⟨?_, h.taken, h.responses, h.responding, h.exited⟩, fun a ha => ha⟩
    intro k req hk
    change (worker.taken ++ (worker.channel ++
      [(⟨(w, worker.received.length), entry⟩ : SequenceRequest H)]))[k]? = some req
      at hk
    rw [← List.append_assoc, ← SequencerWorker.received] at hk
    rcases Nat.lt_trichotomy k worker.received.length with hlt | rfl | hgt
    · rw [List.getElem?_append_left hlt] at hk
      exact h.ids k req hk
    · rw [List.getElem?_append_right le_rfl, Nat.sub_self] at hk
      obtain rfl := Option.some.inj hk
      rfl
    · rw [List.getElem?_append_right hgt.le, List.getElem?_eq_none] at hk
      · cases hk
      · rw [List.length_singleton]
        omega
  | close => exact ⟨⟨h.ids, h.taken, h.responses, h.responding, h.exited⟩, fun a ha => ha⟩
  | recv req rest hselect hchannel =>
    have hcontrol :
        ∀ result closing, (worker.recv req rest).control ≠ .responding result closing := by
      intro result closing
      unfold SequencerWorker.recv
      dsimp only
      split_ifs <;> simp
    refine ⟨⟨?_, ?_, h.responses, ?_, ?_⟩,
      fun a ha => answers_of_control worker _ (by rfl) (by simp [hselect]) ha⟩
    · intro k req' hk
      refine h.ids k req' ?_
      change ((worker.taken ++ [req]) ++ rest)[k]? = some req' at hk
      rwa [SequencerWorker.received, hchannel, List.append_cons]
    · change worker.taken ++ [req] = _ ++ (worker.batch ++ [req])
      rw [h.taken, List.append_assoc]
      rfl
    · intro sequenced closing hc
      exact absurd hc (hcontrol _ _)
    · intro hc
      unfold SequencerWorker.recv at hc
      dsimp only at hc
      split_ifs at hc
  | recvClosed hselect hchannel hclosed =>
    refine ⟨⟨h.ids, h.taken, h.responses, ?_, ?_⟩,
      fun a ha => answers_of_control worker _ (by rfl) (by simp [hselect]) ha⟩
    · intro sequenced closing hc
      unfold SequencerWorker.recvClosed at hc
      dsimp only at hc
      split_ifs at hc
    · intro hc
      unfold SequencerWorker.recvClosed at hc ⊢
      dsimp only at hc ⊢
      split_ifs at hc with hb
      exact hb
  | timeout hselect hb =>
    refine ⟨⟨h.ids, h.taken, h.responses, ?_, ?_⟩,
      fun a ha => answers_of_control worker _ (by rfl) (by simp [hselect]) ha⟩
    · rintro sequenced closing ⟨⟩
    · rintro ⟨⟩
  | respond result closing hc =>
    have hcontrol : ∀ result' closing', (worker.respond result closing).control ≠
        .responding result' closing' := by
      intro result' closing'
      unfold SequencerWorker.respond
      dsimp only
      split_ifs <;> simp
    refine ⟨⟨h.ids, ?_, ?_, ?_, fun _ => rfl⟩, ?_⟩
    · change worker.taken =
        (worker.responses ++ SequencerWorker.answers worker.batch result).map Prod.fst ++ []
      rw [List.map_append, map_fst_answers, List.append_nil]
      · exact h.taken
      · rintro sequenced rfl
        exact (h.responding sequenced closing hc).1
    · intro req i hr
      rcases List.mem_append.mp hr with hr | hr
      · exact h.responses req i hr
      · cases result with
        | ok sequenced => exact (h.responding sequenced closing hc).2 _ (mem_assignments.mpr hr)
        | error e => simp [SequencerWorker.answers] at hr
    · intro sequenced closing' hc'
      exact absurd hc' (hcontrol _ _)
    · rintro a (ha | ⟨sequenced, closing', hc', ha⟩)
      · exact .inl (List.mem_append_left _ ha)
      · rw [hc] at hc'
        obtain ⟨rfl, rfl⟩ := Control.responding.inj hc'
        exact .inl (List.mem_append_right _ (mem_assignments.mp ha))

/-- A worker that goes on to answer its batch. -/
theorem WorkerInv.sequenced (h : WorkerInv assigned w worker) {closing : Bool}
    (hc : worker.control = .flushing closing)
    (result : SequenceResult H) (hresult : ∀ sequenced, result = .ok sequenced →
      sequenced.length = worker.batch.length ∧
      ∀ a ∈ assignments worker.batch sequenced, a ∈ assigned) :
    WorkerInv assigned w (worker.sequenced result closing) ∧
      ∀ a, worker.Answers a → (worker.sequenced result closing).Answers a := by
  refine ⟨⟨h.ids, h.taken, h.responses, ?_, ?_⟩,
    fun a ha => answers_of_control worker _ (by rfl) (by simp [hc]) ha⟩
  · intro sequenced closing' hc'
    exact hresult sequenced (Control.responding.inj hc').1
  · rintro ⟨⟩

end

/-! ### The system -/

namespace SequencerSystem

def size (s : SequencerSystem H) : ℕ := asU64 s.db.logState.integratedSize

/-- The assigned entries that are not integrated. -/
def pending (s : SequencerSystem H) : List (Entry H) :=
  (s.assigned.drop (s.size - s.imported)).map fun a => a.1.entry

/-- The next index. -/
def next (s : SequencerSystem H) : ℕ := s.imported + s.assigned.length

end SequencerSystem

structure Inv (s : SequencerSystem H) : Prop where
  db : DbOf s.db s.size s.pending
  imported_le : s.imported ≤ s.size
  size_le : s.size ≤ s.next
  indices : s.assigned.map Prod.snd = List.range' s.imported s.assigned.length
  workers : ∀ (w : ℕ) (worker : SequencerWorker H), s.workers[w]? = some worker →
  WorkerInv s.assigned w worker
  source : ∀ a ∈ s.assigned, ∃ (w : ℕ) (worker : SequencerWorker H), s.workers[w]? = some worker ∧
    worker.Answers a

/-- The tree and the log only grow. -/
structure Le (s s' : SequencerSystem H) : Prop where
  size : s.size ≤ s'.size
  next : s.next ≤ s'.next

section

variable {s s' : SequencerSystem H}

theorem Le.refl (s : SequencerSystem H) : Le s s := ⟨le_rfl, le_rfl⟩

theorem Le.trans (a b c : SequencerSystem H) (h : Le a b) (h' : Le b c) : Le a c :=
  ⟨h.size.trans h'.size, h.next.trans h'.next⟩

theorem Inv.next_eq (h : Inv s) : s.size + s.pending.length = s.next := by
  have := h.imported_le
  have := h.size_le
  rw [SequencerSystem.pending, List.length_map, List.length_drop]
  unfold SequencerSystem.next at *
  omega

theorem Inv.init : Inv (SequencerSystem.init : SequencerSystem H) := by
  refine ⟨⟨rfl, rfl, Nat.zero_le _, rfl⟩, le_rfl, le_rfl, rfl, ?_, ?_⟩
  · intro w worker h
    simp [SequencerSystem.init] at h
  · intro a ha
    cases ha

/-- A step of one worker, which may add to the assigned indices. -/
theorem Inv.setWorker {w : ℕ} {worker worker' : SequencerWorker H}
    (hw : s.workers[w]? = some worker) {assigned : List (SequenceRequest H × ℕ)}
    (h : ∀ (w : ℕ) (worker : SequencerWorker H), s.workers[w]? = some worker →
      WorkerInv assigned w worker)
    (hsource : ∀ a ∈ s.assigned, ∃ (w : ℕ) (worker : SequencerWorker H), s.workers[w]? =
      some worker ∧ worker.Answers a)
    (hinv : WorkerInv assigned w worker') (hkeep : ∀ a, worker.Answers a → worker'.Answers a)
    (hnew : ∀ a ∈ assigned, a ∈ s.assigned ∨ worker'.Answers a) :
    (∀ (v : ℕ) (other : SequencerWorker H), (s.workers.set w worker')[v]? = some other →
      WorkerInv assigned v other) ∧
      ∀ a ∈ assigned, ∃ (v : ℕ) (other : SequencerWorker H),
        (s.workers.set w worker')[v]? = some other ∧ other.Answers a := by
  have hlt := (List.getElem?_eq_some_iff.mp hw).1
  have hself : (s.workers.set w worker')[w]? = some worker' := by rw [List.getElem?_set_self hlt]
  refine ⟨?_, ?_⟩
  · intro v other hv
    by_cases hvw : v = w
    · subst hvw
      rw [hself] at hv
      exact Option.some.inj hv ▸ hinv
    · rw [List.getElem?_set_ne (Ne.symm hvw)] at hv
      exact h v other hv
  · intro a ha
    rcases hnew a ha with hold | hnew
    · obtain ⟨v, other, hv, hother⟩ := hsource a hold
      by_cases hvw : v = w
      · subst hvw
        rw [hw] at hv
        obtain rfl := Option.some.inj hv
        exact ⟨v, worker', hself, hkeep a hother⟩
      · exact ⟨v, other, by rw [List.getElem?_set_ne (Ne.symm hvw)]; exact hv, hother⟩
    · exact ⟨w, worker', hself, hnew⟩

/-- A step of one worker without the database. -/
theorem Inv.worker (h : Inv s) {w : ℕ} {worker worker' : SequencerWorker H}
    (hw : s.workers[w]? = some worker)
    (hstep : WorkerInv s.assigned w worker' ∧ ∀ a, worker.Answers a → worker'.Answers a) :
    Inv (s.setWorker w worker') ∧ Le s (s.setWorker w worker') := by
  obtain ⟨hworkers, hsource⟩ :=
    Inv.setWorker hw h.workers h.source hstep.1 hstep.2 fun a ha => .inl ha
  exact ⟨⟨h.db, h.imported_le, h.size_le, h.indices, hworkers, hsource⟩, ⟨le_rfl, le_rfl⟩⟩

/-- A batch is committed. -/
theorem Inv.commit [DecidableEq H] (h : Inv s) {w : ℕ} {worker : SequencerWorker H} {closing : Bool}
    {answers : List (Except Error (SequencedEntry H))} {db : Database H}
    (hw : s.workers[w]? = some worker) (hc : worker.control = .flushing closing)
    (hseq : s.db.sequenceEntries (worker.batch.map fun req => req.entry) = .ok (answers, db)) :
    Inv (s.commit w worker closing answers db) ∧ Le s (s.commit w worker closing answers db) := by
  obtain ⟨hdb, hindices, -, -, hanswers⟩ := h.db.sequenceEntries hseq
  have hlen : answers.length = worker.batch.length := by
    have := hanswers.length_eq
    rw [List.length_map] at this
    exact this.symm
  have hentries := map_entry_assignments hanswers
  have hnext := h.next_eq
  have hsize : (s.commit w worker closing answers db).size = s.size := by
    have := hdb.bound
    change asU64 db.logState.integratedSize = s.size
    rw [hdb.integrated, Storage.asU64_natCast (by omega)]
  have hpending :
      (s.commit w worker closing answers db).pending = s.pending ++ accepted answers := by
    rw [SequencerSystem.pending, hsize]
    change ((s.assigned ++ assignments worker.batch answers).drop (s.size - s.imported)).map
      (fun a => a.1.entry) = _
    have := h.size_le
    have := h.imported_le
    unfold SequencerSystem.next at *
    rw [List.drop_append_of_le_length (by omega), List.map_append, hentries]
    rfl
  have hworker := (h.workers w worker hw).mono
    (fun a ha => List.mem_append_left (assignments worker.batch answers) ha)
  obtain ⟨hinv, hkeep⟩ := hworker.sequenced hc (.ok answers) (by
    rintro sequenced ⟨⟩
    exact ⟨hlen, fun a ha => List.mem_append_right _ ha⟩)
  obtain ⟨hworkers, hsource⟩ := Inv.setWorker hw
    (fun v other hv => (h.workers v other hv).mono fun a ha => List.mem_append_left _ ha) h.source
      hinv hkeep (by
      intro a ha
      rcases List.mem_append.mp ha with ha | ha
      · exact .inl ha
      · exact .inr (.inr ⟨answers, closing, rfl, ha⟩))
  have hgrow : s.next ≤ (s.commit w worker closing answers db).next := by
    change s.imported + s.assigned.length ≤ s.imported +
      (s.assigned ++ assignments worker.batch answers).length
    rw [List.length_append]
    omega
  refine ⟨⟨?_, ?_, ?_, ?_, hworkers, hsource⟩, hsize.ge, hgrow⟩
  · rw [hsize, hpending]
    exact hdb
  · rw [hsize]
    exact h.imported_le
  · rw [hsize]
    exact h.size_le.trans hgrow
  · change (s.assigned ++ assignments worker.batch answers).map Prod.snd = _
    have hcount : (accepted answers).length = (assignments worker.batch answers).length := by
      rw [← hentries, List.length_map]
    rw [List.map_append, h.indices, map_snd_assignments hlen, hindices, hnext, hcount]
    change _ = List.range' s.imported (s.assigned ++ assignments worker.batch answers).length
    rw [List.length_append, SequencerSystem.next, List.range'_append_1]

/-- An import is committed, and so nothing was sequenced before it. -/
theorem Inv.importLog (h : Inv s) {size : ℕ} {root : H} {db : Database H}
    (himport : s.db.importLog size root = .ok db) :
    Inv { s with db, imported := size } ∧ Le s { s with db, imported := size } := by
  rw [Database.importLog, Database.beginImport] at himport
  split_ifs at himport with hempty
  · simp [bind, Except.bind] at himport
  rw [not_or, not_or, not_or, not_not, not_not] at hempty
  obtain ⟨hzero, -, -, hnone⟩ := hempty
  have hnext := h.db.next
  rw [hzero, h.next_eq] at hnext
  have hassigned : s.assigned = [] := by
    apply List.eq_nil_of_length_eq_zero
    unfold SequencerSystem.next at hnext
    omega
  have hs : s.size = 0 := by
    have := h.size_le
    omega
  simp only [bind, Except.bind, Database.finishImport] at himport
  split_ifs at himport with hmax
  cases himport
  have hsize :
      ({ s with db := { s.db with logState := ⟨size, size, some root⟩ }, imported := size } :
      SequencerSystem H).size = size := Storage.asU64_natCast (by omega)
  refine ⟨⟨?_, hsize.ge, ?_, ?_, h.workers, h.source⟩, ?_, ?_⟩
  · rw [hsize, SequencerSystem.pending, hassigned]
    refine ⟨rfl, by simp, by simpa using hmax, ?_⟩
    simpa [pendingRows] using hnone
  · rw [hsize]
    exact Nat.le_add_right _ _
  · rw [hassigned]
    rfl
  · rw [hsize, hs]
    exact Nat.zero_le _
  · change s.imported + s.assigned.length ≤ size + s.assigned.length
    unfold SequencerSystem.next at hnext
    omega

/-- The steps around the integration cycles keep the invariant. -/
theorem Inv.env [DecidableEq H] (h : Inv s) (he : Env s s') : Inv s' ∧ Le s s' := by
  cases he with
  | spawn batchMaxSize =>
    refine ⟨⟨h.db, h.imported_le, h.size_le, h.indices, ?_, ?_⟩, ⟨le_rfl, le_rfl⟩⟩
    · intro w worker hw
      rw [List.getElem?_append] at hw
      split_ifs at hw with hlt
      · exact h.workers w worker hw
      · obtain rfl := List.mem_singleton.mp (List.mem_of_getElem? hw)
        exact .new _
    · intro a ha
      obtain ⟨w, worker, hw, hworker⟩ := h.source a ha
      exact ⟨w, worker, List.getElem?_append_left (List.getElem?_eq_some_iff.mp hw).1 ▸ hw, hworker⟩
  | worker w worker worker' hw hstep => exact h.worker hw ((h.workers w worker hw).step hstep)
  | commit w worker closing answers db hw hc hseq => exact h.commit hw hc hseq
  | rollback w worker closing e hw hc hseq =>
    exact h.worker hw ((h.workers w worker hw).sequenced hc _ (by rintro _ ⟨⟩))
  | fault w worker closing e hw hc =>
    exact h.worker hw ((h.workers w worker hw).sequenced hc _ (by rintro _ ⟨⟩))
  | insertMode mode =>
    exact ⟨⟨h.db.insertMode mode, h.imported_le, h.size_le, h.indices, h.workers, h.source⟩,
      ⟨le_rfl, le_rfl⟩⟩
  | importLog size root db himport => exact h.importLog himport
  | importAbort => exact ⟨h, .refl _⟩

/-- A mark of `k` entries that were pending. -/
theorem Inv.mark (h : Inv s) {n k : ℕ} (hk : n + k ≤ s.next) {root : H} {marked : Bool}
    {db : Database H}
    (hm : s.db.markIntegratedIfCurrent n (n + k) root = .ok (marked, db)) : Inv { s with db } ∧
    Le s { s with db } := by
  have hnext := h.next_eq
  have hb := h.db.bound
  by_cases hcur : n = s.size
  · subst hcur
    obtain ⟨db', hdb, hof, -, -, -⟩ := h.db.mark (k := k) (by omega) root
    rw [hdb, Except.ok.injEq, Prod.mk.injEq] at hm
    obtain ⟨rfl, rfl⟩ := hm
    have hsize : ({ s with db := db' } : SequencerSystem H).size = s.size + k := by
      change asU64 db'.logState.integratedSize = _
      rw [hof.integrated, Storage.asU64_natCast (by omega)]
    have := h.imported_le
    refine ⟨⟨?_, ?_, ?_, h.indices, h.workers, h.source⟩, ?_, le_rfl⟩
    · rw [hsize, SequencerSystem.pending, hsize]
      dsimp only
      rw [show s.size + k - s.imported = s.size - s.imported + k by
          omega, ← List.drop_drop, List.map_drop]
      exact hof
    · rw [hsize]
      dsimp only
      omega
    · rw [hsize]
      exact hk
    · rw [hsize]
      omega
  · rw [h.db.mark_stale hcur (Nat.le_add_right n k) root, Except.ok.injEq, Prod.mk.injEq] at hm
    obtain ⟨rfl, rfl⟩ := hm
    exact ⟨h, .refl _⟩

end

end Siglog.Sequencer
