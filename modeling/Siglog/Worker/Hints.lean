import Siglog.Worker.Publisher

/-! The sizes that the publisher records, when its witnesses answer anything. A conflict
tells a size, and the next request starts from it; if it lies beyond the tree, there is no
next request. The steps of the system are those of the publisher and of the log; which
responses occur is a parameter. -/

namespace Siglog.Worker.Hints

open Concurrent (Prog)
open Merkle (ReadTile TileAnswers)
open Note (NoteCrypto Origin CheckpointSigner CosignedCheckpoint)
open Rfc (mth)
open Storage (Op Server perform TileStorage.reader)
open Text (Str trim parseU64 decimal utf8)
open Text.Base64 (DecodeErrors)
open Witness (Response HttpTexts)

/-- The arguments of the publisher. -/
structure Publication (SK VK : Type) [NoteCrypto SK VK] where
  signer : CheckpointSigner SK
  witnesses : List (CheckpointSigner SK)
  externalWitnesses : List (ExternalWitness VK)
  witnessQuorum : Option ℕ
  origin : Origin

/-- The log, the memory of the publisher, and what the last cycle has seen and done: the size,
the root and the last publication it has read, the URLs it has asked, and whether its storage
failed. -/
structure Memory (H : Type) [Sha256Hash H] where
  log : LogPool H
  sizes : Str → Option ℕ
  lastPublished : LastPublished H
  seen : ℕ
  root : Option H
  last : LastPublished H
  asked : List Str
  failed : Bool

variable {SK VK H : Type} [NoteCrypto SK VK] [Sha256Hash H]

namespace Memory

def init : Memory H := ⟨⟨.init, []⟩, fun _ => none, ⟨0, none⟩, 0, none, ⟨0, none⟩, [], false⟩

/-- The size recorded for a witness. -/
def recorded (s : Memory H) (url : Str) : ℕ := (s.sizes url).getD 0

def setSize (s : Memory H) (url : Str) (size : ℕ) : Memory H :=
  { s with sizes := fun u => if u = url then some size else s.sizes u }

/-- An operation on the log has been answered. -/
def stored (s : Memory H) (o : Op H) (r : o.Answer H) (t : LogSystem H) : Memory H :=
  { s with
    log := { s.log with shared := t }
    seen := match o, r with
      | .getLogState, .ok state => state.integratedSize
      | _, _ => s.seen
    root := match o, r with
      | .getLogState, .ok state => headRoot state
      | _, _ => s.root
    failed := match r with
      | .ok _ => s.failed
      | .error _ => true }

/-- A request has been sent. -/
def ask (s : Memory H) (url : Str) : Memory H := { s with asked := s.asked ++ [url] }

/-- A cycle begins. It has read nothing yet. -/
def start (s : Memory H) : Memory H :=
  { s with seen := 0, root := none, last := ⟨0, none⟩, asked := [], failed := false }

def restart (s : Memory H) : Memory H :=
  { s with sizes := fun _ => none, lastPublished := ⟨0, none⟩ }

end Memory

section

variable [HttpTexts]

/-- The size that a conflict tells. -/
def conflictSize (response : Response) : Option ℕ :=
  if response.status = 409 then
    (responseText response).toOption.bind fun body => (parseU64 (trim body)).toOption
  else none

/-- A conflict tells no size beyond the tree; nor beyond the checkpoint that it answers, if
two witnesses share their record. -/
def Publication.Within (c : Publication SK VK) (s : Memory H) (response : Response) : Prop :=
  ∀ size, conflictSize response = some size →
    size ≤ if (c.externalWitnesses.map fun w => w.url).Nodup then s.log.shared.size else s.seen

/-- One operation of the publisher. -/
inductive AskExec (answers : Memory H → Response → Prop) :
    Memory H → (o : PublishOp H) → o.Answer H → Memory H → Prop where
  | store {s : Memory H} {o : Op H} {r : o.Answer H} {t : LogSystem H}
      (h : Exec s.log.shared o r t) :
      AskExec answers s (.store o) r (s.stored o r t)
  | now {s : Memory H} (r : Except String UInt64) : AskExec answers s .now r s
  | getSize {s : Memory H} (url : Str) : AskExec answers s (.getSize url) (s.recorded url) s
  | setSize {s : Memory H} (url : Str) (size : ℕ) :
      AskExec answers s (.setSize url size) () (s.setSize url size)
  | getLastPublished {s : Memory H} :
      AskExec answers s .getLastPublished s.lastPublished { s with last := s.lastPublished }
  | setLastPublished {s : Memory H} (last : LastPublished H) :
      AskExec answers s (.setLastPublished last) () { s with lastPublished := last }
  | post {s : Memory H} (url : Str) (body : Bytes) (response : Response) (h : answers s response) :
      AskExec answers s (.post url body) (.ok response) (s.ask url)
  | postFailed {s : Memory H} (url : Str) (body : Bytes) (e : String) :
      AskExec answers s (.post url body) (.error e) (s.ask url)

/-- The system, and the cycle that the publisher is in. -/
structure Attempt (H : Type) [Sha256Hash H] where
  memory : Memory H
  cycle : Option (Publisher H Unit)

variable [DecidableEq H] [DecodeErrors]

def Publication.publish (c : Publication SK VK) : Publisher H Unit :=
  publishCheckpoint c.signer c.witnesses c.externalWitnesses c.witnessQuorum c.origin

namespace Attempt

inductive Step (c : Publication SK VK) (answers : Memory H → Response → Prop) :
    Attempt H → Attempt H → Prop where
  | log {s : Memory H} {p : Option (Publisher H Unit)} {l : LogPool H} (h : logSys.Step s.log l) :
      Step c answers ⟨s, p⟩ ⟨{ s with log := l }, p⟩
  | start {s : Memory H} : Step c answers ⟨s, none⟩ ⟨s.start, some c.publish⟩
  | run {s t : Memory H} {o : PublishOp H} {k : o.Answer H → Publisher H Unit} {r : o.Answer H}
      (h : AskExec answers s o r t) :
      Step c answers ⟨s, some (.op o k)⟩ ⟨t, some (k r)⟩
  | done {s : Memory H} : Step c answers ⟨s, some (.pure ())⟩ ⟨s, none⟩
  | failed {s : Memory H} (e : Fault Error) : Step c answers ⟨s, some (.fail e)⟩ ⟨s, none⟩
  | restart {s : Memory H} {p : Option (Publisher H Unit)} : Step c answers ⟨s, p⟩ ⟨s.restart, none⟩

/-- The states that any run from the empty log can reach. -/
def Reachable (c : Publication SK VK) (answers : Memory H → Response → Prop) (p : Attempt H) :
    Prop :=
  Relation.ReflTransGen (Step c answers) ⟨.init, none⟩ p

end Attempt

/-! ### The invariant -/

/-- No recorded size is beyond the tree. -/
structure MemoryInv (s : Memory H) : Prop where
  log : Worker.Reachable s.log
  recorded : ∀ url, s.recorded url ≤ s.log.shared.size

/-- A cycle over the tree of `D` has sent requests to `A`, and may send one to each of `rest`. -/
structure Asking (D : List H) (rest A : List Str) (s : Memory H) : Prop where
  log : Worker.Reachable s.log
  leaves : D <+: s.log.shared.leaves
  mem : D.length ∈ s.log.shared.sizes
  le : D.length ≤ s.log.shared.size
  seen : s.seen = D.length
  root : s.root = some (mth D)
  recorded : ∀ url ∈ rest, s.recorded url ≤ D.length
  asked : s.failed = true ∨ s.asked = A

/-- The log moves and nothing else. -/
def Rely (s t : Memory H) : Prop :=
  ∃ l, Relation.ReflTransGen logSys.Step s.log l ∧ t = { s with log := l }

omit [HttpTexts] [DecodeErrors] in
theorem Rely.trans (a b c : Memory H) (h : Rely a b) (h' : Rely b c) : Rely a c := by
  obtain ⟨l, hl, rfl⟩ := h
  obtain ⟨l', hl', rfl⟩ := h'
  exact ⟨l', hl.trans hl', rfl⟩

omit [HttpTexts] [DecidableEq H] [DecodeErrors] in
theorem recorded_setSize (s : Memory H) (url : Str) (size : ℕ) (u : Str) :
    (s.setSize url size).recorded u = if u = url then size else s.recorded u := by
  unfold Memory.recorded Memory.setSize
  dsimp only
  split_ifs <;> rfl

section

variable [LawfulSha256Hash H] {D : List H} {rest A : List Str} {s t : Memory H}

omit [HttpTexts] [DecodeErrors] in
theorem MemoryInv.rely (h : MemoryInv s) (hr : Rely s t) : MemoryInv t := by
  obtain ⟨l, hl, rfl⟩ := hr
  exact ⟨Relation.ReflTransGen.trans h.log hl,
    fun url => (h.recorded url).trans (run_le h.log hl).size⟩

omit [HttpTexts] [DecodeErrors] in
theorem Asking.rely (h : Asking D rest A s) (hr : Rely s t) : Asking D rest A t := by
  obtain ⟨l, hl, rfl⟩ := hr
  have hle := run_le h.log hl
  exact ⟨Relation.ReflTransGen.trans h.log hl, h.leaves.trans (hle.log.map _), hle.sizes _ h.mem,
    h.le.trans hle.size, h.seen, h.root, h.recorded, h.asked⟩

omit [HttpTexts] [DecodeErrors] in
theorem Asking.length_le (h : Asking D rest A s) : D.length ≤ i64Max :=
  h.le.trans (reachable_inv h.log).size_le

end

/-! ### Rules -/

/-- Whatever is answered, the program ends in `P` if it succeeds. -/
def Asks (c : Publication SK VK) {α : Type} (p : Publisher H α) (P : α → Memory H → Prop)
    (s : Memory H) : Prop :=
  p.Safe (AskExec c.Within) MemoryInv Rely (fun _ _ => True) (fun x t => ∀ a, x = .ok a → P a t) s

section Rules

variable {c : Publication SK VK} {s : Memory H} {α β : Type} {P : α → Memory H → Prop}

omit [DecodeErrors] in
theorem asks_pure {a : α} (h : P a s) : Asks c (.pure a) P s := by
  rintro _ ⟨⟩
  exact h

omit [DecodeErrors] in
theorem asks_fail (e : Fault Error) : Asks c (.fail e : Publisher H α) P s := by rintro _ ⟨⟩

omit [DecodeErrors] in
theorem asks_ofExcept {x : Except (Fault Error) α} (h : ∀ a, x = .ok a → P a s) :
    Asks c (Prog.ofExcept x) P s := by
  cases x with
  | ok a => exact asks_pure (h a rfl)
  | error e => exact asks_fail e

omit [DecodeErrors] in
theorem asks_bind {p : Publisher H α} {f : α → Publisher H β} {Q : β → Memory H → Prop}
    (hp : Asks c p P s) (hf : ∀ a t, P a t → Asks c (f a) Q t) : Asks c (p.bind f) Q s := by
  refine Prog.safe_bind.mpr (Prog.safe_weaken (fun x t hx => ?_) hp)
  cases x with
  | ok a => exact hf a t (hx a rfl)
  | error e => rintro _ ⟨⟩

omit [DecodeErrors] in
/-- A result that is matched on. -/
theorem asks_caught {p : Publisher H α} {Q : Except (Fault Error) α → Memory H → Prop}
    (hp : p.Safe (AskExec c.Within) MemoryInv Rely (fun _ _ => True) Q s) :
    Asks c (caught p) (fun x t => Q (x.mapError .err) t) s := by
  refine Prog.safe_bind.mpr (Prog.safe_attempt (Prog.safe_weaken (fun x t hx => ?_) hp))
  rcases x with (e | _) | a
  · exact asks_pure hx
  · exact asks_fail .panic
  · exact asks_pure hx

omit [DecodeErrors] in
theorem asks_call {o : PublishOp H} {Q : o.Answer H → Memory H → Prop}
    (h : ∀ t, Rely s t → MemoryInv t → ∀ r t', AskExec c.Within t o r t' → MemoryInv t' ∧ Q r t') :
    Asks c (Prog.call o) Q s := by
  intro t hr hi r t' he
  obtain ⟨hi', hq⟩ := h t hr hi r t' he
  refine ⟨hi', trivial, ?_⟩
  rintro _ ⟨⟩
  exact hq

end Rules

/-! ### A cycle -/

section

variable [LawfulSha256Hash H] {c : Publication SK VK} {D : List H} {rest A : List Str}
  {s : Memory H}

omit [DecodeErrors] in
/-- The tiles of the tree can be read unless the storage fails. -/
theorem reader_asks (hs : Asking D rest A s) (o : ReadTile) :
    (onStore (TileStorage.reader o) : Publisher H _).Safe (AskExec c.Within) MemoryInv Rely
      (fun _ _ => True)
      (fun x t => Asking D rest A t ∧ (∀ r, x = .ok r → TileAnswers D o r) ∧
        ∀ e, x = .error e → t.failed = true) s := by
  obtain ⟨level, index, part⟩ := o
  rw [TileStorage.reader, Storage.TileStorage.readTile, Prog.bind_eq, perform, Prog.bind_assoc,
    onStore_bind, Prog.safe_bind]
  intro s₁ hr hi r s₂ he
  have hs₁ := hs.rely hr
  have hlog := reachable_inv hs₁.log
  cases he with
  | store he =>
    cases he with
    | fault f hf =>
      refine ⟨⟨hi.log, hi.recorded⟩, trivial,
        ⟨hs₁.log, hs₁.leaves, hs₁.mem, hs₁.le, hs₁.seen, hs₁.root, hs₁.recorded, .inl rfl⟩, ?_, ?_⟩
      · rintro _ ⟨⟩
      · exact fun _ _ => rfl
    | read =>
      refine ⟨⟨hi.log, hi.recorded⟩, trivial, ?_⟩
      have hanswer := hlog.tileAnswers hs₁.mem hs₁.leaves hs₁.length_le level index part
      have hs₂ : Asking D rest A
          (s₁.stored (.readObject (Api.tilePath level index part))
            (.ok (s₁.log.shared.objects (Api.tilePath level index part)))
            s₁.log.shared) :=
        ⟨hs₁.log, hs₁.leaves, hs₁.mem, hs₁.le, hs₁.seen, hs₁.root, hs₁.recorded, hs₁.asked⟩
      cases hobj : s₁.log.shared.objects (Api.tilePath level index part) with
      | none =>
        rw [hobj] at hs₂
        refine ⟨hs₂, ?_, ?_⟩
        · rintro _ ⟨⟩
          exact hanswer.1 hobj
        · rintro _ ⟨⟩
      | some data =>
        obtain ⟨tile, htile, -⟩ := hlog.tile level index part data hobj
        rw [hobj] at hs₂
        change Prog.Safe _ _ _ _ _
          (onStore ((Prog.ofExcept (Merkle.HashTile.fromBytes data)).bind fun tile =>
          .pure (some tile))) _
        rw [htile]
        refine ⟨hs₂, ?_, ?_⟩
        · rintro _ ⟨⟩
          exact hanswer.2 data tile hobj htile
        · rintro _ ⟨⟩

omit [DecodeErrors] in
/-- A proof from a recorded size that is not beyond the tree fails only with the storage. -/
theorem consistencyProof_asks (hs : Asking D rest A s) {old : ℕ} (hle : old ≤ D.length) :
    (consistencyProof old D.length : Publisher H _).Safe (AskExec c.Within) MemoryInv Rely
      (fun _ _ => True)
      (fun x t => Asking D rest A t ∧ ∀ e, x = .error e → t.failed = true) s := by
  rw [consistencyProof]
  split_ifs with h
  · have hgen :=
      Merkle.generateConsistencyProofSimple_returns (D := D) (m := old) (by omega) hle hs.length_le
    refine Prog.safe_weaken ?_ (Prog.safe_translate (J := Asking D rest A)
      (E := fun _ t => Asking D rest A t ∧ t.failed = true)
      (fun o t ht => Prog.safe_weaken ?_ (reader_asks ht o)) hgen hs)
    · rintro x t (⟨ht, rfl⟩ | ⟨e, rfl, ht, hfailed⟩)
      · exact ⟨ht, by rintro _ ⟨⟩⟩
      · exact ⟨ht, fun _ _ => hfailed⟩
    · rintro x t ⟨ht, hok, herr⟩
      exact ⟨fun r hr => ⟨ht, hok r hr⟩, fun e he => ⟨ht, herr e he⟩⟩
  · exact ⟨hs, by rintro _ ⟨⟩⟩

omit [DecodeErrors] in
/-- A size within the tree is recorded. -/
theorem setSize_safe (hs : Asking D rest A s) {url : Str} {size : ℕ}
    (htree : size ≤ s.log.shared.size) (hahead : url ∈ rest → size ≤ D.length) :
    (ExternalWitnessState.setSize url size : Publisher H Unit).Safe (AskExec c.Within) MemoryInv
      Rely (fun _ _ => True)
      (fun _ t => Asking D rest A t) s := by
  intro t hr hi r t' he
  have ht := hs.rely hr
  have hgrown : size ≤ t.log.shared.size := by
    obtain ⟨l, hl, rfl⟩ := hr
    exact htree.trans (run_le hs.log hl).size
  cases he with
  | setSize =>
    refine ⟨⟨hi.log, fun u => ?_⟩, trivial,
      ⟨ht.log, ht.leaves, ht.mem, ht.le, ht.seen, ht.root, fun u hu => ?_, ht.asked⟩⟩
    · rw [recorded_setSize]
      split_ifs
      · exact hgrown
      · exact hi.recorded u
    · rw [recorded_setSize]
      split_ifs with heq
      · exact hahead (heq ▸ hu)
      · exact ht.recorded u hu

/-- Whatever a response means, the rest of the witnesses will be asked. -/
theorem readResponse_safe (hs : Asking D rest A s) {w : ExternalWitness VK}
    {cosigned : CosignedCheckpoint H}
    {response : Response} (hdup : (c.externalWitnesses.map fun w => w.url).Nodup → w.url ∉ rest)
    (h : c.Within s response) :
    (readResponse SK w cosigned response).Safe (AskExec c.Within) MemoryInv Rely (fun _ _ => True)
      (fun _ t => Asking D rest A t) s := by
  rw [readResponse]
  cases htext : responseText response with
  | error e => exact hs
  | ok body =>
    change Prog.Safe _ _ _ _ _ (if response.status = 409 then noteConflict w.url body else _) _
    split_ifs with hstatus
    · rw [noteConflict]
      cases hsize : parseU64 (trim body) with
      | error e => exact hs
      | ok size =>
        have hbound : size ≤
            if (c.externalWitnesses.map fun w => w.url).Nodup then s.log.shared.size
            else s.seen := by
          apply h size
          simp [conflictSize, hstatus, htext, hsize, Except.toOption]
        have htree : size ≤ s.log.shared.size := by
          split_ifs at hbound
          · exact hbound
          · exact hbound.trans (hs.seen.le.trans hs.le)
        have hahead : w.url ∈ rest → size ≤ D.length := by
          intro hmem
          rw [if_neg fun hnodup => hdup hnodup hmem, hs.seen] at hbound
          exact hbound
        refine Prog.safe_bind.mpr
          (Prog.safe_weaken (fun x t ht => ?_) (setSize_safe hs htree hahead))
        cases x with
        | ok _ => exact ht
        | error _ => exact ht
    · cases hcheck : (checkResponse SK w cosigned response.status body).mapError Fault.err with
      | error e => exact hs
      | ok line => exact hs

omit [HttpTexts] [DecodeErrors] [LawfulSha256Hash H] in
theorem Asking.ask (hs : Asking D rest A s) (url : Str) :
    Asking D rest (A ++ [url]) (s.ask url) := by
  refine ⟨hs.log, hs.leaves, hs.mem, hs.le, hs.seen, hs.root, hs.recorded,
    hs.asked.imp_right fun h => ?_⟩
  rw [Memory.ask, h]

theorem callExternalWitness_safe (hs : Asking D rest A s) {w : ExternalWitness VK}
    {cosigned : CosignedCheckpoint H} {old : ℕ}
    {proof : List H} (hdup : (c.externalWitnesses.map fun w => w.url).Nodup → w.url ∉ rest) :
    (callExternalWitness SK w cosigned old proof).Safe (AskExec c.Within) MemoryInv Rely
      (fun _ _ => True)
      (fun _ t => Asking D rest (A ++ [endpoint w.url]) t) s := by
  intro s₁ hr hi r s₂ he
  have hs₁ := (hs.rely hr).ask (endpoint w.url)
  cases he with
  | post _ _ response h => exact ⟨⟨hi.log, hi.recorded⟩, trivial, readResponse_safe hs₁ hdup h⟩
  | postFailed _ _ e => exact ⟨⟨hi.log, hi.recorded⟩, trivial, hs₁⟩

/-- A witness is sent a request, unless the storage fails. -/
theorem witnessExternally_asks {w : ExternalWitness VK} (hs : Asking D (w.url :: rest) A s)
    (hdup : (c.externalWitnesses.map fun w => w.url).Nodup → w.url ∉ rest)
    (collected : Collected H) :
    Asks c (witnessExternally SK D.length w collected)
      (fun _ t => Asking D rest (A ++ [endpoint w.url]) t) s := by
  have hget : Asks c (ExternalWitnessState.getSize w.url : Publisher H ℕ)
      (fun old t => Asking D (w.url :: rest) A t ∧ old ≤ D.length) s := by
    refine asks_call fun t hr hi r t' he => ?_
    cases he with
    | getSize =>
      have ht := hs.rely hr
      exact ⟨hi, ht, ht.recorded w.url List.mem_cons_self⟩
  refine asks_bind hget fun old s₁ ⟨hs₁, hold⟩ => ?_
  refine asks_bind (asks_caught (consistencyProof_asks hs₁ hold)) fun x s₂ ⟨hs₂, hx⟩ => ?_
  have hs₂' : Asking D rest A s₂ :=
    ⟨hs₂.log, hs₂.leaves, hs₂.mem, hs₂.le, hs₂.seen, hs₂.root,
      fun url hurl => hs₂.recorded url (List.mem_cons_of_mem _ hurl), hs₂.asked⟩
  cases x with
  | error e =>
    have hfailed := hx (.err e) rfl
    exact asks_pure
      ⟨hs₂'.log, hs₂'.leaves, hs₂'.mem, hs₂'.le, hs₂'.seen, hs₂'.root, hs₂'.recorded, .inl hfailed⟩
  | ok proof =>
    refine asks_bind (asks_caught (callExternalWitness_safe hs₂' hdup)) fun y s₃ hs₃ => ?_
    cases y with
    | error e => exact asks_pure hs₃
    | ok signatureLine =>
      dsimp only
      cases addExternalSignatureLine collected.cosigned w.name signatureLine with
      | error e => exact asks_pure hs₃
      | ok cosigned =>
        have hset : (ExternalWitnessState.setSize w.url D.length).Safe (AskExec c.Within) MemoryInv
            Rely (fun _ _ => True) _ s₃ :=
          setSize_safe hs₃ hs₃.le fun _ => le_rfl
        refine asks_bind (P := fun _ t => Asking D rest (A ++ [endpoint w.url]) t)
          (Prog.safe_weaken (fun _ _ h _ _ => h) hset) fun _ s₄ hs₄ => ?_
        exact asks_pure hs₄

theorem witnessAll_asks (ws : List (ExternalWitness VK)) (hws : ws <:+ c.externalWitnesses) :
    ∀ {s : Memory H} {A : List Str} {collected : Collected H},
      Asking D (ws.map fun w => w.url) A s →
      Asks c (witnessAll SK D.length ws collected)
        (fun _ t => Asking D [] (A ++ ws.map fun w => endpoint w.url) t) s := by
  induction ws with
  | nil =>
    intro s A collected hs
    rw [List.map_nil, List.append_nil]
    exact asks_pure hs
  | cons w ws ih =>
    intro s A collected hs
    have hdup : (c.externalWitnesses.map fun w => w.url).Nodup → w.url ∉ ws.map fun w => w.url := by
      intro hnodup
      have hsuffix := hnodup.sublist (hws.sublist.map fun w => w.url)
      rw [List.map_cons, List.nodup_cons] at hsuffix
      exact hsuffix.1
    refine asks_bind (witnessExternally_asks hs hdup collected) fun collected s₁ hs₁ => ?_
    rw [List.map_cons, List.append_cons]
    exact ih ((List.suffix_cons w ws).trans hws) hs₁

omit [DecodeErrors] in
theorem cosignAll_asks (ws : List (CheckpointSigner SK)) :
    ∀ {s : Memory H} {cosigned : CosignedCheckpoint H},
    Asking D rest A s → Asks c (cosignAll ws cosigned) (fun _ t => Asking D rest A t) s := by
  induction ws with
  | nil => exact fun hs => asks_pure hs
  | cons w ws ih =>
    intro s cosigned hs
    refine asks_bind (P := fun _ t => Asking D rest A t) (asks_call fun t hr hi r t' he => ?_)
      fun now s₁ hs₁ => ?_
    · cases he with
      | now => exact ⟨hi, hs.rely hr⟩
    · exact asks_bind (P := fun _ t => Asking D rest A t) (asks_ofExcept fun _ _ => hs₁)
        fun sig s₂ hs₂ => ih hs₂

/-- At the end of a cycle every witness has been sent a request, unless the storage has failed
or the tree head that was read is the one published last. -/
def Asked (c : Publication SK VK) (s : Memory H) : Prop :=
  s.failed = true ∨ (∃ root, s.root = some root ∧ s.last = ⟨s.seen, some root⟩) ∨
    s.asked = c.externalWitnesses.map fun w => endpoint w.url

omit [DecodeErrors] [LawfulSha256Hash H] in
/-- A checkpoint is written. -/
theorem writeCheckpoint_asks (hasked : s.failed = true ∨ s.asked = A) (data : Bytes) :
    Asks c (onStore (perform (.writeObject Api.checkpointPath data)))
      (fun _ t => t.failed = true ∨ t.asked = A) s := by
  rw [perform, onStore_bind]
  refine asks_bind (P := fun _ t => t.failed = true ∨ t.asked = A)
    (asks_call fun t hr hi r t' he => ?_) fun r t ht => ?_
  · obtain ⟨l, -, rfl⟩ := hr
    have hput : Worker.Reachable { l with shared := l.shared.put Api.checkpointPath data } :=
      hi.log.tail (.env (.publish l.shared data))
    cases he with
    | store he =>
      cases he with
      | fault => exact ⟨⟨hi.log, hi.recorded⟩, .inl rfl⟩
      | write => exact ⟨⟨hput, hi.recorded⟩, hasked⟩
      | writeLost => exact ⟨⟨hput, hi.recorded⟩, .inl rfl⟩
  · cases r with
    | ok _ => exact asks_pure ht
    | error e => exact asks_fail e

/-- What a cycle does with the tree head that it has read. -/
theorem publishHead_asks (hs : Asking D (c.externalWitnesses.map fun w => w.url) [] s) :
    Asks c (publishHead c.signer c.witnesses c.externalWitnesses c.witnessQuorum c.origin D.length
      (mth D))
      (fun _ t => Asked c t) s := by
  have hget : Asks c (LastPublished.get : Publisher H _)
      (fun last t => Asking D (c.externalWitnesses.map fun w => w.url) [] t ∧ t.last = last) s := by
    refine asks_call fun t hr hi r t' he => ?_
    have ht := hs.rely hr
    cases he with
    | getLastPublished =>
      exact ⟨⟨hi.log, hi.recorded⟩,
        ⟨ht.log, ht.leaves, ht.mem, ht.le, ht.seen, ht.root, ht.recorded, ht.asked⟩, rfl⟩
  refine asks_bind hget fun last s₁ ⟨hs₁, hlast⟩ => ?_
  split_ifs with hsame
  · refine asks_pure (.inr (.inl ⟨mth D, hs₁.root, ?_⟩))
    rw [hlast, hsame, hs₁.seen]
  refine asks_bind (cosignAll_asks c.witnesses hs₁) fun cosigned s₂ hs₂ => ?_
  refine asks_bind (witnessAll_asks c.externalWitnesses List.suffix_rfl hs₂) fun collected s₃ hs₃ =>
    ?_
  have hasked : ∀ {t : Memory H},
      (t.failed = true ∨ t.asked = c.externalWitnesses.map fun w => endpoint w.url) → Asked c t :=
    fun h => h.imp_right .inr
  split_ifs with hquorum
  · exact asks_pure (hasked hs₃.asked)
  refine asks_bind (writeCheckpoint_asks hs₃.asked _) fun _ s₄ hs₄ => ?_
  refine asks_call fun t hr hi r t' he => ?_
  obtain ⟨l, -, rfl⟩ := hr
  cases he with
  | setLastPublished => exact ⟨⟨hi.log, hi.recorded⟩, hasked hs₄⟩

theorem publish_asks (c : Publication SK VK) (hfresh : s.asked = []) :
    Asks c c.publish (fun _ t => Asked c t) s := by
  rw [Publication.publish, publishCheckpoint_eq, perform, onStore_bind]
  refine Prog.safe_bind.mpr (Prog.safe_bind.mpr ?_)
  intro s₁ hr hi₁ r s₂ he
  obtain ⟨l, -, rfl⟩ := hr
  cases he with
  | store he =>
    cases he with
    | fault => exact ⟨⟨hi₁.log, hi₁.recorded⟩, trivial, asks_fail (c := c) _⟩
    | getLogState =>
      refine ⟨⟨hi₁.log, hi₁.recorded⟩, trivial, ?_⟩
      have hinv := reachable_inv hi₁.log
      have hlen := hinv.length_tree
      change Prog.Safe _ _ _ _ _ ((headRoot l.shared.db.getLogState).elim (.pure ())
        (publishHead c.signer c.witnesses c.externalWitnesses c.witnessQuorum c.origin
          l.shared.size)) _
      have hroot := headRoot_getLogState hinv
      rw [hroot, ← hlen]
      refine publishHead_asks
        ⟨hi₁.log, Inv.tree_prefix, ?_, hlen.le, hlen.symm, hroot, fun url _ => ?_,
        .inr hfresh⟩
      · rw [hlen]
        exact hinv.size_mem
      · rw [hlen]
        exact hi₁.recorded url

/-! ### Runs -/

/-- The invariant of the system. -/
structure Good (c : Publication SK VK) (p : Attempt H) : Prop where
  memory : MemoryInv p.memory
  cycle : ∀ program, p.cycle = some program → Asks c program (fun _ t => Asked c t) p.memory

omit [LawfulSha256Hash H] [DecodeErrors] in
theorem Good.init (c : Publication SK VK) : Good c (⟨.init, none⟩ : Attempt H) :=
  ⟨⟨.refl, fun _ => le_rfl⟩, by rintro _ ⟨⟩⟩

theorem Good.step {p q : Attempt H} (hp : Good c p) (h : Attempt.Step c c.Within p q) :
    Good c q := by
  cases h with
  | log h =>
    have hrely : Rely _ _ := ⟨_, Relation.ReflTransGen.single h, rfl⟩
    refine ⟨hp.memory.rely hrely, fun program hprogram => ?_⟩
    refine Prog.safe_stable Rely.trans (fun _ _ _ hq hr a ha => ?_) (hp.cycle program hprogram)
      hrely
    obtain ⟨l, -, rfl⟩ := hr
    exact hq a ha
  | start =>
    have hi : MemoryInv (Memory.start _) := ⟨hp.memory.log, hp.memory.recorded⟩
    refine ⟨hi, ?_⟩
    rintro _ ⟨⟩
    exact publish_asks c rfl
  | run h =>
    obtain ⟨hi, -, hk⟩ := hp.cycle _ rfl _ ⟨_, .refl, rfl⟩ hp.memory _ _ h
    refine ⟨hi, ?_⟩
    rintro _ ⟨⟩
    exact hk
  | done => exact ⟨hp.memory, by rintro _ ⟨⟩⟩
  | failed e => exact ⟨hp.memory, by rintro _ ⟨⟩⟩
  | restart => exact ⟨⟨hp.memory.log, fun _ => Nat.zero_le _⟩, by rintro _ ⟨⟩⟩

theorem reachable_good {p : Attempt H} (h : Attempt.Reachable c c.Within p) : Good c p := by
  induction h with
  | refl => exact .init c
  | tail _ hstep ih => exact ih.step hstep

/-- As long as no conflict tells a size beyond the tree, no recorded size is beyond the tree, and
every cycle that comes to its end has sent a request to each witness, unless the storage has
failed or the tree head that was read, with its size and its root, is the one published last. -/
theorem reachable_asked {p : Attempt H} (h : Attempt.Reachable c c.Within p) :
    (∀ url, p.memory.recorded url ≤ p.memory.log.shared.size) ∧
      (p.cycle = some (.pure ()) → p.memory.failed = true ∨
        (∃ root, p.memory.root = some root ∧ p.memory.last = ⟨p.memory.seen, some root⟩) ∨
        p.memory.asked = c.externalWitnesses.map fun w => endpoint w.url) := by
  have hgood := reachable_good h
  exact ⟨hgood.memory.recorded, fun hcycle => hgood.cycle _ hcycle () rfl⟩

end

/-! ### Runs in which nothing else fails -/

section

/-- What an operation does when nothing fails and every witness gives the same response. -/
def Memory.answer (clock : UInt64) (response : Response) (s : Memory H) :
    (o : PublishOp H) → o.Answer H × Memory H
  | .store o =>
    ((s.log.shared.answer o).1, s.stored o (s.log.shared.answer o).1 (s.log.shared.answer o).2)
  | .now => (.ok clock, s)
  | .getSize url => (s.recorded url, s)
  | .setSize url size => ((), s.setSize url size)
  | .getLastPublished => (s.lastPublished, { s with last := s.lastPublished })
  | .setLastPublished last => ((), { s with lastPublished := last })
  | .post url _ => (.ok response, s.ask url)

/-- The memory after such a cycle, and how the cycle has ended. -/
def attempt (c : Publication SK VK) (clock : UInt64) (response : Response) (s : Memory H) :
    Except (Fault Error) Unit × Memory H :=
  Concurrent.Sys.runAlone (Memory.answer clock response) c.publish s.start

variable {c : Publication SK VK} {answers : Memory H → Response → Prop}

theorem reachable_attempt {s : Memory H} (h : Attempt.Reachable c answers ⟨s, none⟩)
    (clock : UInt64) (response : Response) (hanswers : ∀ t, answers t response) :
    Attempt.Reachable c answers
      ⟨(attempt c clock response s).2, some (Prog.ofExcept (attempt c clock response s).1)⟩ := by
  have hexec : ∀ (t : Memory H) (o : PublishOp H),
      AskExec answers t o (t.answer clock response o).1 (t.answer clock response o).2 := by
    intro t o
    cases o with
    | store o => exact .store (exec_answer t.log.shared o)
    | now => exact .now _
    | getSize url => exact .getSize url
    | setSize url size => exact .setSize url size
    | getLastPublished => exact .getLastPublished
    | setLastPublished last => exact .setLastPublished last
    | post url body => exact .post url body response (hanswers t)
  have hrun : ∀ (p : Publisher H Unit) (t : Memory H), Attempt.Reachable c answers ⟨t, some p⟩ →
      Attempt.Reachable c answers ⟨(Concurrent.Sys.runAlone (Memory.answer clock response) p t).2,
        some (Prog.ofExcept (Concurrent.Sys.runAlone (Memory.answer clock response) p t).1)⟩ := by
    intro p
    induction p with
    | pure _ => exact fun _ h => h
    | fail e => exact fun _ h => h
    | op o k ih => exact fun t h => ih _ _ (h.tail (.run (hexec t o)))
  exact hrun c.publish s.start (h.tail .start)

end

end

/-! ### One witness -/

section

open Note (StartKey)

attribute [local instance] Text.Base64.plainErrors Witness.plainTexts

/-- A log with one witness. -/
def single : Publication StartKey StartKey where
  signer := ⟨"log".toList, .mk, StartKey.start 4 []⟩
  witnesses := []
  externalWitnesses := [startWitness]
  witnessQuorum := none
  origin := Note.logOrigin

/-- A conflict that tells a size. -/
def refusal (size : ℕ) : Response := ⟨409, utf8 (decimal size)⟩

/-- A conflict that tells the largest size is recorded, and after it the witness is sent nothing. -/
theorem conflict_locks_out :
    ∃ s : Memory StartHash, Attempt.Reachable single (fun _ _ => True) ⟨s, none⟩ ∧
    s.log.shared.size < s.recorded "http://witness".toList ∧
    (attempt single 0 (refusal 0) s).1 = .ok () ∧
    (attempt single 0 (refusal 0) s).2.asked = [] := by
  have hstart :
      Attempt.Reachable single (fun _ _ => True) ⟨(Memory.init : Memory StartHash), none⟩ := .refl
  have hany : ∀ _ : Memory StartHash, True := fun _ => trivial
  have h := reachable_attempt hstart 0 (refusal (2 ^ 64 - 1)) hany
  have hok : (attempt single 0 (refusal (2 ^ 64 - 1)) (Memory.init : Memory StartHash)).1 =
      .ok () := by decide +kernel
  rw [hok] at h
  refine ⟨_, h.tail .done, ?_, ?_, ?_⟩
  · decide +kernel
  · decide +kernel
  · decide +kernel

/-- A conflict that tells the size of the empty log. The next cycle asks the witness again. -/
theorem reachable_asked_refused : ∃ s : Memory StartHash,
    Attempt.Reachable single single.Within ⟨s, none⟩ ∧
    s.recorded "http://witness".toList ≤ s.log.shared.size ∧
    (attempt single 0 (refusal 0) s).1 = .ok () ∧
    (attempt single 0 (refusal 0) s).2.asked = ["http://witness/add-checkpoint".toList] := by
  have hwithin : ∀ t : Memory StartHash, single.Within t (refusal 0) := by
    intro t size hsize
    have hzero : conflictSize (refusal 0) = some 0 := by decide +kernel
    rw [hzero] at hsize
    obtain rfl := Option.some.inj hsize
    exact Nat.zero_le _
  have hstart : Attempt.Reachable single single.Within ⟨(Memory.init : Memory StartHash), none⟩ :=
    .refl
  have h := reachable_attempt hstart 0 _ hwithin
  have hok : (attempt single 0 (refusal 0) (Memory.init : Memory StartHash)).1 = .ok () := by
    decide +kernel
  rw [hok] at h
  have hagain : (attempt single 0 (refusal 0)
      (attempt single 0 (refusal 0) (Memory.init : Memory StartHash)).2).1 =
      .ok () := by decide +kernel
  have hended := reachable_attempt (h.tail .done) 0 _ hwithin
  rw [hagain] at hended
  have hurls : (single.externalWitnesses.map fun w => endpoint w.url) =
      ["http://witness/add-checkpoint".toList] := by
    decide +kernel
  refine ⟨_, h.tail .done, (reachable_asked h).1 _, hagain, ?_⟩
  -- the storage has not failed, and nothing was published before
  have hnever : (attempt single 0 (refusal 0)
      (attempt single 0 (refusal 0) (Memory.init : Memory StartHash)).2).2.last =
      ⟨0, none⟩ := by decide +kernel
  rcases (reachable_asked hended).2 rfl with hfailed | ⟨root, -, hlast⟩ | hasked
  · exact absurd hfailed (by decide +kernel)
  · exact absurd (congrArg LastPublished.rootHash (hnever.symm.trans hlast)) nofun
  · exact hasked.trans hurls

end

end Siglog.Worker.Hints
