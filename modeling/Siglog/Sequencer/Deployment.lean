import Siglog.Api.Rekor
import Siglog.Api.Remote
import Siglog.Sequencer.Runs
import Siglog.Worker.Progress
import Siglog.Worker.Publisher

/-! A log that is deployed: its handlers, sequencing, integration and the objects in one
state. The sequencer and the log are two views of it, and both see a run of their own.
So a submission that was answered with an index is at that index of the log, once it is
integrated every client gets it from there with a proof, and without an index whatever was
sequenced can be integrated. -/

namespace Siglog.Sequencer

open Api (Cached Path SeenFrom addEntry authorizeWrite checkpointPath)
open Api.Rekor (canonicalEntry)
open Concurrent.Sys (runAlone)
open Import (maxEntrySize)
open Merkle (InclusionVerifier LawfulInclusionVerifier MapOrder)
open Note (Checkpoint)
open Rfc (mth)
open Storage (Database Mode Op SequencedEntry Server)
open Text (Str)
open Worker (LogSystem)

/-- The state of the sequencer, the stored objects, and the sizes that were integrated. -/
structure Deployment (H : Type) [Sha256Hash H] where
  sequencer : SequencerSystem H
  objects : Path → Option Bytes
  sizes : List ℕ

variable {H : Type} [Sha256Hash H]

namespace Deployment

/-- An empty log without workers. -/
def init : Deployment H := ⟨.init, fun _ => none, [0]⟩

/-- What the integration cycles and the clients see. -/
def log (d : Deployment H) : LogSystem H :=
  ⟨d.sequencer.db, d.objects, d.sequencer.assigned.map fun a => a.1.entry, d.sizes⟩

/-- The state after an operation of a cycle on the log. -/
def withLog (d : Deployment H) (s : LogSystem H) : Deployment H :=
  ⟨{ d.sequencer with db := s.db }, s.objects, s.sizes⟩

end Deployment

section

variable [Api.Rekor.Library]

/-- The entries that `add_entry` and `create_entry` send. -/
inductive Admitted : Entry H → Prop where
  | add (apiKey : Option Str) (authorization : Option Bytes) (body : Bytes) (entry : Entry H)
      (h : addEntry apiKey authorization body = .ok entry) : Admitted entry
  | create (apiKey : Option Str) (authorization : Option Bytes) (body canonical : Bytes)
      (hauth : authorizeWrite apiKey authorization = .ok ())
      (h : canonicalEntry body = .ok canonical) :
      Admitted (.new canonical)

/-- The steps of the handlers, the workers and the publisher, and a server that pins its mode. -/
inductive Deployment.Env [DecidableEq H] : Deployment H → Deployment H → Prop where
  | spawn (d : Deployment H) (batchMaxSize : ℕ) :
      Env d { d with sequencer.workers := d.sequencer.workers ++ [.new batchMaxSize] }
  | send (d : Deployment H) (w : ℕ) (worker : SequencerWorker H) (entry : Entry H)
      (hw : d.sequencer.workers[w]? = some worker) (hopen : worker.closed = false)
      (h : Admitted entry) :
      Env d { d with sequencer := d.sequencer.setWorker w (worker.send w entry) }
  | worker (d : Deployment H) (w : ℕ) (worker worker' : SequencerWorker H)
      (hw : d.sequencer.workers[w]? = some worker)
      (h : worker.Step w worker') (hsend : worker'.received = worker.received) :
      Env d { d with sequencer := d.sequencer.setWorker w worker' }
  | commit (d : Deployment H) (w : ℕ) (worker : SequencerWorker H) (closing : Bool)
      (answers : List (Except Error (SequencedEntry H))) (db : Database H)
      (hw : d.sequencer.workers[w]? = some worker)
      (hc : worker.control = .flushing closing)
      (h : d.sequencer.db.sequenceEntries (worker.batch.map fun req => req.entry) =
        .ok (answers, db)) :
      Env d { d with sequencer := d.sequencer.commit w worker closing answers db }
  | rollback (d : Deployment H) (w : ℕ) (worker : SequencerWorker H) (closing : Bool) (e : Error)
      (hw : d.sequencer.workers[w]? = some worker) (hc : worker.control = .flushing closing) :
      Env d { d with sequencer := d.sequencer.rollback w worker closing e }
  | insertMode (d : Deployment H) (mode : Mode) :
      Env d { d with sequencer.db := d.sequencer.db.insertMode mode }
  | publish (d : Deployment H) (data : Bytes) : Env d (d.withLog (d.log.put checkpointPath data))

end

/-- The operations of a cycle are those on the log. -/
inductive Deployment.Exec : Deployment H → (o : Op H) → o.Answer H → Deployment H → Prop where
  | log (d : Deployment H) (o : Op H) (r : o.Answer H) (s : LogSystem H)
      (h : Worker.Exec d.log o r s) :
      Exec d o r (d.withLog s)

/-- Cycles are started at any time. -/
inductive Deployment.Start : Deployment H → Unit → Server H Unit → Prop where
  | cycle (d : Deployment H) (order : MapOrder H) (batchSize : ℕ) (vindex : Bool) :
      Start d () (Worker.runIntegrationCycle order batchSize vindex)

section

variable [Api.Rekor.Library] [DecidableEq H]

def deploymentSys : Concurrent.Sys (Deployment H) Unit (Op H) (Op.Answer H) (Fault Error) Unit where
  env := Deployment.Env
  start := Deployment.Start
  exec := Deployment.Exec

abbrev DeploymentPool (H : Type) [Sha256Hash H] :=
  Concurrent.Pool (Deployment H) Unit (Op H) (Op.Answer H) (Fault Error) Unit

abbrev Deployed (p : DeploymentPool H) : Prop := deploymentSys.Reachable Deployment.init p

end

/-! ### The two views -/

/-- A cycle adds nothing to the log. -/
theorem log_withLog {d : Deployment H} {o : Op H} {r : o.Answer H} {s : LogSystem H}
    (h : Worker.Exec d.log o r s) :
    (d.withLog s).log = s := by
  have hlog : s.log = d.log.log := by cases h <;> rfl
  obtain ⟨db, objects, log, sizes⟩ := s
  obtain rfl : log = d.log.log := hlog
  rfl

/-- An operation on the log is one of the database, or it leaves the database alone. -/
theorem exec_sequencer {d : Deployment H} {o : Op H} {r : o.Answer H} {s : LogSystem H}
    (h : Worker.Exec d.log o r s) :
    Exec d.sequencer o r (d.withLog s).sequencer := by
  cases h with
  | fault => exact .fault d.sequencer o _
  | getLogState => exact .getLogState d.sequencer
  | getPendingEntries fromIndex limit => exact .getPendingEntries d.sequencer fromIndex limit
  | mark expected newSize root marked db h =>
    exact .mark d.sequencer expected newSize root marked db _ h fun m hm => (Except.ok.inj hm).symm
  | markLost expected newSize root marked db f h =>
    exact .mark d.sequencer expected newSize root marked db (.error f) h fun m hm => by cases hm
  | markError expected newSize root f h => exact .markError d.sequencer expected newSize root f h
  | read | write | writeLost | indexEntry | flushIndex | maybeSnapshot =>
    exact .quiet d.sequencer _ _ trivial

/-- What an operation does when nothing fails. -/
def Deployment.answer (d : Deployment H) (o : Op H) : o.Answer H × Deployment H :=
  ((d.log.answer o).1, d.withLog (d.log.answer o).2)

theorem Deployment.exec_answer (d : Deployment H) (o : Op H) :
    d.Exec o (d.answer o).1 (d.answer o).2 :=
  .log d o _ _ (Worker.exec_answer d.log o)

/-- The deployment after a cycle that runs alone. There is no index. -/
def Deployment.integrated (order : MapOrder H) (batchSize : ℕ) (d : Deployment H) : Deployment H :=
  (runAlone Deployment.answer (Worker.runIntegrationCycle order batchSize false) d).2

theorem log_runAlone (order : MapOrder H) (batchSize : ℕ) (d : Deployment H) :
    runAlone Worker.LogSystem.answer (Worker.runIntegrationCycle order batchSize false) d.log =
      ((runAlone Deployment.answer (Worker.runIntegrationCycle order batchSize false) d).1,
        (d.integrated order batchSize).log) := by
  refine Concurrent.Sys.runAlone_view (fun d o => ?_) _ d
  rw [Deployment.answer, log_withLog (Worker.exec_answer d.log o)]

theorem log_iterate (order : MapOrder H) (batchSize : ℕ) (d : Deployment H) (k : ℕ) :
    ((Deployment.integrated order batchSize)^[k] d).log =
      (Worker.integrated order batchSize)^[k] d.log := by
  refine Function.Semiconj.iterate_right (fun d => ?_) k d
  rw [Worker.integrated, log_runAlone]

section

variable [Api.Rekor.Library] [DecidableEq H]

/-- To the sequencer nothing is published, and a cycle only reads and marks rows. -/
theorem refines_sequencer :
    Concurrent.Sys.Refines (deploymentSys (H := H)) sequencerSys Deployment.sequencer where
  env := by
    rintro d d' (_ | _ | _ | _ | _ | _ | _)
    · exact .inr (.spawn _ _)
    · exact .inr (.worker _ _ _ _ ‹_› (.send _ _ ‹_›))
    · exact .inr (.worker _ _ _ _ ‹_› ‹_›)
    · exact .inr (.commit _ _ _ _ _ _ ‹_› ‹_› ‹_›)
    · exact .inr (.fault _ _ _ _ _ ‹_› ‹_›)
    · exact .inr (.insertMode _ _)
    · exact .inl rfl
  start := by
    rintro d t p ⟨⟩
    exact .cycle _ _ _ _
  exec := by
    rintro d o r d' ⟨s, h⟩
    exact exec_sequencer h

/-- To the log a batch that is committed is appended. -/
theorem refines_log :
    Concurrent.Sys.Refines (deploymentSys (H := H)) Worker.logSys Deployment.log where
  env := by
    rintro d d' (_ | _ | _ | ⟨_, worker, _, answers, db, _, _, h⟩ | _ | _ | _)
    · exact .inl rfl
    · exact .inl rfl
    · exact .inl rfl
    · have happend := Worker.Env.append d.log _ answers db h
      rw [← map_entry_assignments (Storage.sequenceEntries_entries h), Deployment.log,
        ← List.map_append] at happend
      exact .inr happend
    · exact .inl rfl
    · exact .inr (.insertMode _ _)
    · exact .inr (.publish _ _)
  start := by
    rintro d t p ⟨⟩
    exact .cycle _ _ _ _
  exec := by
    rintro d o r d' ⟨s, h⟩
    change Worker.Exec d.log o r (d.withLog s).log
    rwa [log_withLog h]

/-! ### Answers -/

theorem deployed_inv {p : DeploymentPool H} (h : Deployed p) : Inv p.shared.sequencer :=
  sequencerProof.reachable_inv Inv.init (refines_sequencer.reachable h)

theorem deployed_log {p : DeploymentPool H} (h : Deployed p) :
    Worker.Reachable (p.map Deployment.log) :=
  refines_log.reachable h

/-- Without an import. -/
theorem deployed_imported {p : DeploymentPool H} (h : Deployed p) :
    p.shared.sequencer.imported = 0 := by
  have hstep : ∀ {p q : DeploymentPool H}, deploymentSys.Step p q →
      q.shared.sequencer.imported = p.shared.sequencer.imported := by
    rintro _ _ (⟨he⟩ | _ | he | _)
    · cases he <;> rfl
    · rfl
    · cases he
      rfl
    · rfl
  induction h with
  | refl => rfl
  | tail _ hs ih => rw [hstep hs, ih]

/-- The request of an answer is at its index of the log. -/
theorem log_of_answer {p : DeploymentPool H} (h : Deployed p) {w : ℕ} {worker : SequencerWorker H}
    {req : SequenceRequest H} {i : ℕ} (hw : p.shared.sequencer.workers[w]? = some worker)
    (hr : (req, .ok i) ∈ worker.responses) :
    p.shared.log.log[i]? = some req.entry := by
  have hinv := deployed_inv h
  obtain ⟨k, hk⟩ := List.mem_iff_getElem?.mp ((hinv.workers w worker hw).responses req i hr)
  have hindex : (p.shared.sequencer.assigned.map Prod.snd)[k]? = some i := by
    rw [List.getElem?_map, hk]; rfl
  rw [hinv.indices, deployed_imported h, List.getElem?_range' (List.getElem?_eq_some_iff.mp hk).1,
    Option.some.injEq, zero_add, one_mul] at hindex
  subst hindex
  rw [Deployment.log, List.getElem?_map, hk]
  rfl

/-- What a client gets is in the log for good. -/
theorem run_prefix [LawfulSha256Hash H] {p q : DeploymentPool H} (h : Deployed p)
    (hpq : Relation.ReflTransGen deploymentSys.Step p q) : p.shared.log.log <+: q.shared.log.log :=
  (Worker.run_le (deployed_log h) (refines_log.run hpq)).log

/-- The checkpoint that the publisher makes of the log. -/
structure HeadOf (s : LogSystem H) (c : Checkpoint H) : Prop where
  size : c.size = s.db.getLogState.integratedSize
  root : Worker.headRoot s.db.getLogState = some c.rootHash

section

variable [LawfulSha256Hash H] {p q r : DeploymentPool H}

/-- A checkpoint is one of every later state. -/
theorem head_of_run (hr : Deployed r) (hrq : Relation.ReflTransGen deploymentSys.Step r q)
    {c : Checkpoint H} (hc : HeadOf r.shared.log c) : c.size ∈ q.shared.log.sizes ∧
    c.rootHash = mth (q.shared.log.leaves.take c.size) := by
  have hinv : Worker.Inv r.shared.log := Worker.reachable_inv (deployed_log hr)
  have hle := Worker.run_le (deployed_log hr) (refines_log.run hrq)
  have hsize : c.size = r.shared.log.size := hc.size
  refine ⟨hsize ▸ hle.sizes _ hinv.size_mem, ?_⟩
  have hroot := hc.root
  rw [Worker.headRoot_getLogState hinv, Option.some.injEq] at hroot
  rw [← hroot, hsize]
  obtain ⟨E, hE⟩ : r.shared.log.leaves <+: q.shared.log.leaves := hle.log.map _
  have hlen : r.shared.log.size ≤ r.shared.log.leaves.length := by
    rw [LogSystem.leaves, List.length_map]
    exact hinv.sizes_le _ hinv.size_mem
  rw [← hE, List.take_append_of_le_length hlen]
  rfl

variable [Witness.HttpTexts] [InclusionVerifier H] [LawfulInclusionVerifier H]

/-- A submission that was answered with an index is served for good: with every checkpoint
that covers the index, made before or after the answer, a client that reads while the log
goes on gets the data of the submission at its index, and proves that it is there. -/
theorem answered_served (hp : Deployed p) (hpq : Relation.ReflTransGen deploymentSys.Step p q)
    {w : ℕ} {worker : SequencerWorker H} {req : SequenceRequest H} {i : ℕ}
    (hw : p.shared.sequencer.workers[w]? = some worker) (hreq : (req, .ok i) ∈ worker.responses)
    (hr : Deployed r) (hrq : Relation.ReflTransGen deploymentSys.Step r q) {c : Checkpoint H}
    (hc : HeadOf r.shared.log c) (hi : i < c.size) {base : Str} {client : LogClient H}
    (hclient : Cached q.shared.log.leaves base client) :
    (client.bundle (i / 256) c.size).Returns (SeenFrom (q.map Deployment.log) base)
      (fun x => ∃ bundle, x = .ok bundle ∧ bundle.entries[i % 256]? = some req.entry.data) ∧
    (client.verifyEntry req.entry.data i c).Returns (SeenFrom (q.map Deployment.log) base)
      (fun x => ∃ client', x = .ok client' ∧ Cached q.shared.log.leaves base client') := by
  obtain ⟨hmem, hroot⟩ := head_of_run hr hrq hc
  have hq : Deployed q := hp.trans hpq
  have hentry : q.shared.log.log[i]? = some req.entry := by
    obtain ⟨E, hE⟩ := run_prefix hp hpq
    have hget := log_of_answer hp hw hreq
    rw [← hE, List.getElem?_append_left (List.getElem?_eq_some_iff.mp hget).1, hget]
  refine ⟨?_, Api.verifyEntry_served (deployed_log hq) hmem hclient hentry hi rfl hroot⟩
  rw [← hclient.1]
  refine Concurrent.Prog.returns_mono ?_ (Api.bundle_entry (deployed_log hq) hmem hentry hi)
  rintro _ ⟨bundle, rfl, -, hget⟩
  exact ⟨bundle, rfl, hget⟩

end

/-! ### Progress -/

omit [DecidableEq H] in
/-- Whatever the handlers send fits into a bundle. -/
theorem Admitted.length_le {entry : Entry H} (h : Admitted entry) :
    entry.data.length ≤ maxEntrySize := by
  cases h with
  | add apiKey authorization body entry h =>
    obtain ⟨-, -, hlen, rfl⟩ := Api.addEntry_eq_ok.mp h
    exact hlen
  | create apiKey authorization body canonical hauth h => exact Api.Rekor.canonicalEntry_length h

/-- The requests of all workers are those that the handlers have sent. -/
def AllAdmitted (workers : List (SequencerWorker H)) : Prop :=
  ∀ worker ∈ workers, ∀ req ∈ worker.received, Admitted req.entry

omit [DecidableEq H] in
theorem AllAdmitted.set {workers : List (SequencerWorker H)} (h : AllAdmitted workers) {w : ℕ}
    {worker : SequencerWorker H} (hworker : ∀ req ∈ worker.received, Admitted req.entry) :
    AllAdmitted (workers.set w worker) := by
  intro other hother
  rcases List.mem_or_eq_of_mem_set hother with hother | rfl
  · exact h other hother
  · exact hworker

theorem AllAdmitted.env {d d' : Deployment H} (h : AllAdmitted d.sequencer.workers)
    (he : d.Env d') :
    AllAdmitted d'.sequencer.workers := by
  cases he with
  | spawn batchMaxSize =>
    intro worker hworker
    rcases List.mem_append.mp hworker with hworker | hworker
    · exact h worker hworker
    · obtain rfl := List.mem_singleton.mp hworker
      exact List.forall_mem_nil _
  | send w worker entry hw hopen hadmitted =>
    refine h.set fun req hreq => ?_
    rw [SequencerWorker.received, SequencerWorker.send, ← List.append_assoc, List.mem_append,
      List.mem_singleton] at hreq
    rcases hreq with hreq | rfl
    · exact h worker (List.mem_of_getElem? hw) req hreq
    · exact hadmitted
  | worker w worker worker' hw hstep hsend =>
    exact h.set fun req hreq => h worker (List.mem_of_getElem? hw) req (hsend ▸ hreq)
  | commit w worker closing answers db hw => exact h.set (h worker (List.mem_of_getElem? hw))
  | rollback w worker closing e hw => exact h.set (h worker (List.mem_of_getElem? hw))
  | insertMode | publish => exact h

theorem deployed_allAdmitted {p : DeploymentPool H} (h : Deployed p) :
    AllAdmitted p.shared.sequencer.workers := by
  induction h with
  | refl => exact List.forall_mem_nil _
  | tail _ hstep ih =>
    cases hstep with
    | env he => exact ih.env he
    | start | stop => exact ih
    | run he =>
      cases he
      exact ih

/-- Nothing else gets into the log. -/
theorem deployed_admitted {p : DeploymentPool H} (h : Deployed p) {entry : Entry H}
    (hentry : entry ∈ p.shared.log.log) :
    Admitted entry := by
  obtain ⟨a, ha, rfl⟩ := List.mem_map.mp hentry
  have hinv := deployed_inv h
  obtain ⟨w, worker, hw, hworker⟩ := hinv.source a ha
  have hmem := List.mem_of_getElem? hw
  refine deployed_allAdmitted h worker hmem a.1 (List.mem_append_left _ ?_)
  rw [(hinv.workers w worker hw).taken, List.mem_append]
  rcases hworker with hanswer | ⟨sequenced, closing, -, hassigned⟩
  · exact .inl (List.mem_map.mpr ⟨_, hanswer, rfl⟩)
  · obtain ⟨x, hx, hsome⟩ := List.mem_filterMap.mp hassigned
    obtain ⟨req, answer⟩ := x
    cases answer with
    | error e => cases hsome
    | ok sequencedEntry =>
      obtain rfl := Option.some.inj hsome
      exact .inr (List.of_mem_zip hx).1

/-- Whatever has been sequenced can be integrated where there is no index: after any run,
with whatever failures, cycles that run alone one after the other all succeed, each
integrates its whole batch of what is left, and the log is as it was. -/
theorem deployed_progress [LawfulSha256Hash H] {p : DeploymentPool H} (h : Deployed p)
    (order : MapOrder H) (batchSize k : ℕ) :
    (∃ ts, Relation.ReflTransGen deploymentSys.Step p
      ⟨(Deployment.integrated order batchSize)^[k] p.shared, ts⟩) ∧
      ((Deployment.integrated order batchSize)^[k] p.shared).log.log = p.shared.log.log ∧
      ((Deployment.integrated order batchSize)^[k] p.shared).log.size =
        min (p.shared.log.size + k * batchSize) p.shared.log.log.length ∧
      (runAlone Deployment.answer (Worker.runIntegrationCycle order batchSize false)
        ((Deployment.integrated order batchSize)^[k] p.shared)).1 = .ok () := by
  obtain ⟨hlog, hsize, hok⟩ := Worker.iterate_integrated (deployed_log h) order batchSize
    (fun entry hentry => (deployed_admitted h hentry).length_le) k
  rw [Concurrent.Pool.map, ← log_iterate] at hlog hsize hok
  rw [log_runAlone] at hok
  have hrun := Concurrent.Sys.run_iterate (M := deploymentSys) Deployment.exec_answer
    (fun s => Deployment.Start.cycle s order batchSize false) p k
  exact ⟨hrun, hlog, hsize, hok⟩

end

/-! ### One submission -/

section

open Rfc (VerifyInclusion)

attribute [local instance] Api.Rekor.twoRequests Witness.plainTexts Merkle.rootVerifier
  Merkle.rootVerifier_lawful

/-- The log whose one submission was answered. -/
def answeredDeployment : Deployment StartHash := ⟨answeredOne, fun _ => none, [0]⟩

theorem deployed_answered : Deployed (⟨answeredDeployment, []⟩ : DeploymentPool StartHash) := by
  let entry : Entry StartHash := .new [7]
  let req : SequenceRequest StartHash := ⟨(0, 0), entry⟩
  let fresh : SequencerWorker StartHash := .new 1
  let asked := fresh.send 0 entry
  let full := asked.recv req []
  let state (worker : SequencerWorker StartHash) : Deployment StartHash :=
    { Deployment.init with sequencer.workers := [worker] }
  have hseq : (state full).sequencer.db.sequenceEntries (full.batch.map fun req => req.entry) =
      .ok ([.ok ⟨0, entry⟩], answeredOne.db) := by decide +kernel
  have h₁ : Deployment.Env Deployment.init (state fresh) := .spawn _ 1
  have h₂ : Deployment.Env (state fresh) (state asked) :=
    .send _ 0 fresh entry rfl rfl (.add none none [7] entry rfl)
  have h₃ : Deployment.Env (state asked) (state full) :=
    .worker _ 0 asked full rfl (.recv asked req [] rfl rfl) rfl
  have h₄ := Deployment.Env.commit (state full) 0 full false _ _ rfl rfl hseq
  let answering := full.sequenced (.ok [.ok ⟨0, entry⟩]) false
  let committed : Deployment StartHash :=
    ⟨(state full).sequencer.commit 0 full false [.ok ⟨0, entry⟩] answeredOne.db, fun _ => none, [0]⟩
  have h₅ : Deployment.Env committed answeredDeployment :=
    .worker _ 0 answering _ rfl (.respond answering _ false rfl) rfl
  exact ((((Relation.ReflTransGen.refl.tail (.env h₁)).tail (.env h₂)).tail (.env h₃)).tail
    (.env h₄)).tail (.env h₅)

theorem deployed_progress_one :
    (∃ ts, Relation.ReflTransGen deploymentSys.Step ⟨answeredDeployment, []⟩
      ⟨answeredDeployment.integrated .listed 10, ts⟩) ∧
    (answeredDeployment.integrated .listed 10).log.size = 1 := by
  obtain ⟨hrun, -, hsize, -⟩ := deployed_progress deployed_answered .listed 10 1
  exact ⟨hrun, hsize.trans (by decide +kernel)⟩

theorem answered_served_one : ∃ q : DeploymentPool StartHash, Deployed q ∧ q.shared.log.size = 1 ∧
    (Api.freshClient.bundle 0 1).Returns (SeenFrom (q.map Deployment.log) Api.freshClient.url)
      (fun x => ∃ bundle, x = .ok bundle ∧ bundle.entries[0]? = some [7]) := by
  obtain ⟨ts, hrun⟩ := Concurrent.Sys.run_iterate (M := deploymentSys)
    Deployment.exec_answer (fun d => Deployment.Start.cycle d .listed 10 false)
      ⟨answeredDeployment, []⟩ 1
  have hsize : (answeredDeployment.integrated .listed 10).log.size = 1 := by decide +kernel
  change Relation.ReflTransGen deploymentSys.Step _
    ⟨answeredDeployment.integrated .listed 10, ts⟩ at hrun
  generalize answeredDeployment.integrated .listed 10 = d at hrun hsize
  have hserved := deployed_answered.trans hrun
  have hinv : Worker.Inv d.log := Worker.reachable_inv (deployed_log hserved)
  have hhead : HeadOf d.log ⟨Note.logOrigin, 1, mth d.log.tree⟩ :=
    ⟨hsize.symm, Worker.headRoot_getLogState hinv⟩
  have hfresh : Cached d.log.leaves Api.freshClient.url Api.freshClient :=
    ⟨rfl, fun _ _ _ _ h => by cases h⟩
  exact ⟨_, hserved, hsize,
    (answered_served deployed_answered hrun (w := 0) rfl (List.mem_singleton_self _) hserved .refl
    hhead Nat.zero_lt_one hfresh).1⟩

end

end Siglog.Sequencer
