import Siglog.Worker.WitnessInvariant

/-! The publisher and the witness over whole runs. -/

namespace Siglog.Worker

open Concurrent (Prog)
open Note (NoteCrypto LawfulNoteCrypto CheckpointSigner CheckpointSignature CosignedCheckpoint)
open Merkle (ReadTile TileAnswers)
open Rfc (mth)
open Storage (Op Server perform TileStorage.reader)
open Text (Str Solid trim newline decimal utf8 fromUtf8 fromUtf8_utf8)
open Text.Base64 (DecodeErrors)
open Witness (WitnessDb WitnessError AddCheckpointRequest Response HttpTexts SignedHead proofFrom)

section

variable {SK VK H : Type} [NoteCrypto SK VK] [Sha256Hash H] [DecidableEq H] [DecodeErrors]
  [HttpTexts]

/-- The tree over `D` was integrated, and the publisher knows of the last conflict. -/
structure Ready (d : Deployment SK VK) (D : List H) (s : Net H) : Prop where
  base : Base d D s
  known : Known d s

/-- The part of a cycle is safe, and whether it fails or not it leaves the publisher ready. -/
def Witnesses (d : Deployment SK VK) (D : List H) {α : Type} (p : Publisher H α)
    (P : α → Net H → Prop) (s : Net H) :
    Prop :=
  p.Safe (PublishExec d) (NetInv d) Rely (fun _ _ => True)
    (fun x t => Ready d D t ∧ ∀ a, x = .ok a → P a t) s

section Rules

variable {d : Deployment SK VK} {D : List H} {s : Net H} {α β : Type} {P : α → Net H → Prop}

theorem witnesses_pure {a : α} (hs : Ready d D s) (h : P a s) : Witnesses d D (.pure a) P s :=
  ⟨hs, by rintro _ ⟨⟩; exact h⟩

theorem witnesses_fail {e : Fault Error} (hs : Ready d D s) : Witnesses d D (.fail e) P s :=
  ⟨hs, by rintro _ ⟨⟩⟩

theorem witnesses_ofExcept {x : Except (Fault Error) α} (hs : Ready d D s)
    (h : ∀ a, x = .ok a → P a s) :
    Witnesses d D (Prog.ofExcept x) P s := by
  cases x with
  | ok a => exact witnesses_pure hs (h a rfl)
  | error e => exact witnesses_fail hs

theorem witnesses_bind {p : Publisher H α} {f : α → Publisher H β} {Q : β → Net H → Prop}
    (hp : Witnesses d D p P s)
    (hf : ∀ a t, Ready d D t → P a t → Witnesses d D (f a) Q t) : Witnesses d D (p.bind f) Q s := by
  refine Prog.safe_bind.mpr (Prog.safe_weaken ?_ hp)
  rintro x t ⟨ht, hx⟩
  cases x with
  | ok a => exact hf a t ht (hx a rfl)
  | error e => exact ⟨ht, by rintro _ ⟨⟩⟩

theorem witnesses_caught {p : Publisher H α} (hp : Witnesses d D p P s) :
    Witnesses d D (caught p) (fun x t => ∀ a, x = .ok a → P a t) s := by
  refine Prog.safe_bind.mpr (Prog.safe_attempt (Prog.safe_weaken ?_ hp))
  rintro x t ⟨ht, hx⟩
  cases x with
  | ok a => exact witnesses_pure ht (by rintro _ ⟨⟩; exact hx a rfl)
  | error e =>
    cases e with
    | err e => exact witnesses_pure ht (by rintro _ ⟨⟩)
    | panic => exact witnesses_fail ht

variable [LawfulSha256Hash H]

omit [DecodeErrors] [HttpTexts] in
theorem Ready.rely {t : Net H} (h : Ready d D s) (hr : Rely s t) : Ready d D t :=
  ⟨h.base.rely hr, h.known.rely (hr.imp fun _ => And.right)⟩

/-- An operation that leaves the memory, the witness and what has happened as they are. -/
theorem witnesses_call {o : PublishOp H} {Q : o.Answer H → Net H → Prop} (hs : Ready d D s)
    (h : ∀ t, Rely s t → Ready d D t → NetInv d t → ∀ r t', PublishExec d t o r t' → NetInv d t' ∧
      Ready d D t' ∧ Q r t') :
    Witnesses d D (Prog.call o) Q s := by
  intro t hr hi r t' he
  obtain ⟨hi', ht', hq⟩ := h t hr (hs.rely hr) hi r t' he
  exact ⟨hi', trivial, ht', by rintro _ ⟨⟩; exact hq⟩

end Rules

/-! ### Reading the log -/

section

variable [LawfulSha256Hash H] {d : Deployment SK VK} {D : List H} {s : Net H}

/-- The tiles of the tree can be read. -/
theorem reader_witnesses (hs : Ready d D s) (url : Str) (old : ℕ) (hold : s.recorded url = old)
    (o : ReadTile) :
    Witnesses d D (onStore (TileStorage.reader o))
      (fun r t => TileAnswers D o r ∧ t.recorded url = old) s := by
  obtain ⟨level, index, part⟩ := o
  have hread : Witnesses d D (onStore (perform (.readObject (Api.tilePath level index part))))
      (fun r t => r = t.log.shared.objects (Api.tilePath level index part) ∧ t.recorded url = old)
        s := by
    rw [perform, onStore_bind]
    refine witnesses_bind (P := fun r t => (∀ obj, r = .ok obj →
      obj = t.log.shared.objects (Api.tilePath level index part)) ∧ t.recorded url = old)
      (witnesses_call hs fun t hr ht hi r t' he => ?_) fun r t ht hP => ?_
    · obtain ⟨l, -, rfl⟩ := hr
      cases he with
      | store he =>
        cases he with
        | fault => exact ⟨hi, ht, by rintro _ ⟨⟩, hold⟩
        | read => exact ⟨hi, ht, by rintro _ ⟨⟩; rfl, hold⟩
    · cases r with
      | ok obj => exact witnesses_pure ht ⟨hP.1 obj rfl, hP.2⟩
      | error e => exact witnesses_fail ht
  rw [TileStorage.reader, Storage.TileStorage.readTile, Prog.bind_eq, onStore_bind]
  refine witnesses_bind hread ?_
  rintro r t ht ⟨rfl, hrec⟩
  have hanswer := (reachable_inv ht.base.log).tileAnswers ht.base.mem ht.base.leaves
    ht.base.length_le level index part
  cases hobj : t.log.shared.objects (Api.tilePath level index part) with
  | none => exact witnesses_pure ht ⟨hanswer.1 hobj, hrec⟩
  | some data =>
    cases htile : Merkle.HashTile.fromBytes (H := H) data with
    | error e =>
      dsimp only
      rw [htile]
      exact witnesses_fail ht
    | ok tile =>
      dsimp only
      rw [htile]
      exact witnesses_pure ht ⟨hanswer.2 data tile hobj htile, hrec⟩

/-- The proof that a request carries. -/
theorem consistencyProof_witnesses (hs : Ready d D s) {url : Str} {old : ℕ}
    (hold : s.recorded url = old) :
    Witnesses d D (consistencyProof old D.length)
      (fun proof t => proof = proofFrom old D ∧ t.recorded url = old) s := by
  rw [consistencyProof]
  split_ifs with h
  · by_cases hle : old ≤ D.length
    · have hgen := Merkle.generateConsistencyProofSimple_returns (D := D) (m := old) (by omega) hle
        hs.base.length_le
      refine Prog.safe_weaken ?_
        (Prog.safe_translate (J := fun t => Ready d D t ∧ t.recorded url = old)
        (E := fun _ t => Ready d D t)
        (fun o t ht => Prog.safe_weaken ?_ (reader_witnesses ht.1 url old ht.2 o)) hgen
        ⟨hs, hold⟩)
      · rintro x t (⟨⟨ht, hrec⟩, rfl⟩ | ⟨e, rfl, ht⟩)
        · refine ⟨ht, ?_⟩
          rintro _ ⟨⟩
          rw [proofFrom, if_pos h]
          exact ⟨rfl, hrec⟩
        · exact ⟨ht, by rintro _ ⟨⟩⟩
      · rintro x t ⟨ht, hx⟩
        exact ⟨fun r hr => ⟨⟨ht, (hx r hr).2⟩, (hx r hr).1⟩, fun _ _ => ht⟩
    · -- a witness that is ahead of the log gets no request
      rw [Merkle.generateConsistencyProofSimple, if_neg (by omega), if_pos (by omega)]
      exact witnesses_fail hs
  · refine witnesses_pure hs ⟨?_, hold⟩
    rw [proofFrom, if_neg h]

end

/-! ### Calling the witness -/

section

variable [LawfulSha256Hash H] {d : Deployment SK VK} {D : List H} {s : Net H}
  {cosigned : CosignedCheckpoint H}

/-- A recorded size is that of the witness, unless it is recorded for another one. -/
theorem setSize_witnesses (hb : Base d D s) {url : Str} {size : ℕ} (hk : d.url ≠ url → Known d s)
    (hsize : d.url = url → s.witness.size d.origin.str = size) :
    Witnesses d D (ExternalWitnessState.setSize url size) (fun _ _ => True) s := by
  intro t hr hi r t' he
  have hbt := hb.rely hr
  obtain ⟨l, -, rfl⟩ := hr
  cases he with
  | setSize =>
    refine ⟨hi.setSize fun hu => (hsize hu).ge, trivial, ⟨hbt.setSize url size, ?_⟩,
      fun _ _ => trivial⟩
    refine Known.setSize (fun hu => (hk hu).rely ⟨l, rfl⟩) fun hu body sz hlast => ?_
    exact (hsize hu).symm.trans (hi.last body sz true hlast)

omit [DecodeErrors] in
theorem responseText_conflict {size : ℕ} (h : size < 2 ^ 64) :
    responseText (WitnessError.conflict size).toResponse = .ok (decimal size ++ [newline]) := by
  have hlen := Text.length_decimal_le h
  have hbytes := Text.length_utf8_le (decimal size ++ [newline])
  rw [List.length_append, List.length_singleton] at hbytes
  rw [WitnessError.toResponse, responseText, if_neg (by unfold maxResponse; dsimp only; omega),
    fromUtf8_utf8]

/-- The response of another witness, or one that is not a conflict. -/
theorem readResponse_witnesses (hs : Ready d D s) {w : ExternalWitness VK} {response : Response}
    (h : d.url = w.url → response.status ≠ 409 ∧ s.witness.size d.origin.str = D.length) :
    Witnesses d D (readResponse SK w cosigned response)
      (fun _ t => d.url = w.url → t.witness.size d.origin.str = D.length) s := by
  refine witnesses_bind (P := fun _ t => d.url = w.url → t.witness.size d.origin.str = D.length)
    (witnesses_ofExcept hs fun _ _ hu => (h hu).2) fun body t ht hP => ?_
  split_ifs with hstatus
  · have hu : d.url ≠ w.url := fun hu => (h hu).1 hstatus
    rw [noteConflict]
    split
    · refine witnesses_bind (setSize_witnesses ht.base (fun _ => ht.known) fun hu' => absurd hu' hu)
        fun _ t' ht' _ => ?_
      exact witnesses_fail ht'
    · exact witnesses_fail ht
  · exact witnesses_ofExcept ht fun _ _ => hP

/-- A conflict is recorded. -/
theorem readResponse_conflict (hb : Base d D s) {w : ExternalWitness VK} {size : ℕ}
    (hu : d.url = w.url) (hsize : s.witness.size d.origin.str = size) :
    Witnesses d D (readResponse SK w cosigned (WitnessError.conflict size).toResponse)
      (fun _ _ => False) s := by
  have hlt : size < 2 ^ 64 := by
    have := hb.bound.trans hb.length_le
    unfold i64Max at this
    omega
  rw [readResponse, responseText_conflict hlt]
  change Witnesses d D (noteConflict w.url (decimal size ++ [newline])) _ s
  rw [noteConflict, Text.trim_terminated (Text.solid_decimal size), Text.parseU64_decimal hlt]
  refine witnesses_bind (setSize_witnesses hb (fun hne => absurd hu hne) fun _ => hsize)
    fun _ t ht _ => ?_
  exact witnesses_fail ht

variable [LawfulNoteCrypto SK VK]

/-- A call to a witness that ends in a signature has left the witness at the size of the tree. -/
theorem callExternalWitness_witnesses (hs : Ready d D s) {w : ExternalWitness VK}
    (hw : w ∈ d.externalWitnesses) {old : ℕ}
    (hold : s.recorded w.url = old) (hsigned : SignedHead d.signer d.origin D cosigned) :
    Witnesses d D (callExternalWitness SK w cosigned old (proofFrom old D))
      (fun _ t => d.url = w.url → t.witness.size d.origin.str = D.length) s := by
  intro s₁ hr hi r s₂ he
  have hs₁ := hs.rely hr
  obtain ⟨l, -, rfl⟩ := hr
  have hrecorded : d.url = w.url → ({ s with log := l } : Net H).recorded d.url = old := by
    rintro hu
    rw [hu]
    exact hold
  have hurl : endpoint w.url = endpoint d.url → d.url = w.url := fun h => (d.url_eq w hw h).symm
  cases he with
  | other hne body r =>
    have hu : d.url ≠ w.url := fun hu => hne (by rw [hu])
    refine ⟨hi, trivial, ?_⟩
    cases r with
    | error e => exact witnesses_fail hs₁
    | ok response => exact readResponse_witnesses hs₁ fun hu' => absurd hu' hu
  | lost h body e =>
    obtain ⟨hi', hb'⟩ := hi.lost hs₁.known hs₁.base (hrecorded (hurl h)) hsigned
    refine ⟨hi', trivial, witnesses_fail ⟨hb', ?_⟩⟩
    intro body size hlast
    rw [Net.record, List.getLast?_concat] at hlast
    cases hlast
  | unanswered h body clock e =>
    obtain ⟨hi', hb', -⟩ := hi.handled hs₁.known hs₁.base (hrecorded (hurl h)) hsigned clock false
    refine ⟨hi', trivial, witnesses_fail ⟨hb', ?_⟩⟩
    intro body size hlast
    rw [Net.record, List.getLast?_concat] at hlast
    cases (Event.handled.inj (Option.some.inj hlast)).2.2.2
  | answered h body clock response hresponse =>
    obtain ⟨hi', hb', hcases⟩ :=
      hi.handled hs₁.known hs₁.base (hrecorded (hurl h)) hsigned clock true
    refine ⟨hi', trivial, ?_⟩
    rcases hcases with ⟨hresult, hsize⟩ | ⟨hresult, hsize⟩
    · obtain rfl := Except.ok.inj (hresponse.symm.trans hresult)
      exact Prog.safe_weaken (fun _ _ hx => ⟨hx.1, fun a ha => (hx.2 a ha).elim⟩)
        (readResponse_conflict hb' (hurl h) hsize)
    · obtain rfl := Except.ok.inj (hresponse.symm.trans hresult)
      refine readResponse_witnesses ⟨hb', ?_⟩ fun _ => ⟨by dsimp only; omega, hsize⟩
      intro body size hlast
      rw [Net.record, List.getLast?_concat, hresult] at hlast
      have hstatus :=
        congrArg Response.status (Except.ok.inj (Event.handled.inj (Option.some.inj hlast)).2.2.1)
      cases hstatus

omit [DecidableEq H] [HttpTexts] [LawfulSha256Hash H] [LawfulNoteCrypto SK VK] in
/-- A merged signature has the name of its witness. -/
theorem signedHead_add (h : SignedHead d.signer d.origin D cosigned) {name line : Str}
    (hname : Solid name) {cosigned' : CosignedCheckpoint H}
    (hadd : addExternalSignatureLine cosigned name line = .ok cosigned') :
    SignedHead d.signer d.origin D cosigned' := by
  rw [addExternalSignatureLine] at hadd
  rcases hsig : CheckpointSignature.fromLine line with e | sig
  · simp [hsig, bind, Except.bind] at hadd
  · simp only [hsig, bind, Except.bind] at hadd
    split_ifs at hadd with hne hany
    · obtain rfl := Except.ok.inj hadd
      exact h
    · obtain rfl := Except.ok.inj hadd
      rw [not_not] at hne
      exact h.push (hne ▸ hname)

theorem witnessExternally_witnesses (hs : Ready d D s) {w : ExternalWitness VK}
    (hw : w ∈ d.externalWitnesses)
    {c : Collected H} (hsigned : SignedHead d.signer d.origin D c.cosigned) :
    Witnesses d D (witnessExternally SK D.length w c)
      (fun c _ => SignedHead d.signer d.origin D c.cosigned) s := by
  refine witnesses_bind (P := fun old t => t.recorded w.url = old) ?_ fun old s₁ hs₁ hold => ?_
  · refine witnesses_call hs fun t hr ht hi r t' he => ?_
    cases he with
    | getSize => exact ⟨hi, ht, rfl⟩
  refine witnesses_bind (witnesses_caught (consistencyProof_witnesses hs₁ hold)) fun x s₂ hs₂ hx =>
    ?_
  cases x with
  | error e => exact witnesses_pure hs₂ hsigned
  | ok proof =>
    obtain ⟨rfl, hold₂⟩ := hx proof rfl
    refine witnesses_bind (witnesses_caught (callExternalWitness_witnesses hs₂ hw hold₂ hsigned))
      fun y s₃ hs₃ hy => ?_
    cases y with
    | error e => exact witnesses_pure hs₃ hsigned
    | ok signatureLine =>
      dsimp only
      rcases hadd : addExternalSignatureLine c.cosigned w.name signatureLine with e | cosigned
      · exact witnesses_pure hs₃ hsigned
      · refine witnesses_bind (setSize_witnesses hs₃.base (fun _ => hs₃.known)
          (hy signatureLine rfl)) fun _ s₄ hs₄ _ => ?_
        refine witnesses_pure hs₄ ?_
        rw [Collected.cosigned_count]
        exact signedHead_add hsigned (d.external_solid w hw) hadd

theorem witnessAll_witnesses (ws : List (ExternalWitness VK))
    (hws : ∀ w ∈ ws, w ∈ d.externalWitnesses) :
    ∀ {s : Net H} {c : Collected H}, Ready d D s → SignedHead d.signer d.origin D c.cosigned →
      Witnesses d D (witnessAll SK D.length ws c) (fun _ _ => True) s := by
  induction ws with
  | nil => exact fun hs _ => witnesses_pure hs trivial
  | cons w ws ih =>
    intro s c hs hsigned
    refine witnesses_bind (witnessExternally_witnesses hs (hws w List.mem_cons_self) hsigned)
      fun c s₁ hs₁ hc => ?_
    exact ih (fun v hv => hws v (List.mem_cons_of_mem w hv)) hs₁ hc

omit [LawfulNoteCrypto SK VK] in
theorem cosignAll_witnesses (ws : List (CheckpointSigner SK)) (hws : ∀ w ∈ ws, w ∈ d.witnesses) :
    ∀ {s : Net H} {cosigned : CosignedCheckpoint H}, Ready d D s →
      SignedHead d.signer d.origin D cosigned →
      Witnesses d D (cosignAll ws cosigned)
        (fun cosigned _ => SignedHead d.signer d.origin D cosigned) s := by
  induction ws with
  | nil => exact fun hs hsigned => witnesses_pure hs hsigned
  | cons w ws ih =>
    intro s cosigned hs hsigned
    refine witnesses_bind (P := fun _ _ => True) ?_ fun now s₁ hs₁ _ => ?_
    · refine witnesses_call hs fun t hr ht hi r t' he => ?_
      cases he with
      | now => exact ⟨hi, ht, trivial⟩
    · refine witnesses_bind (P := fun sig _ => sig.name = w.name) (witnesses_ofExcept hs₁ ?_)
        fun sig s₂ hs₂ hname => ?_
      · intro sig hsig
        cases now with
        | error e => cases hsig
        | ok clock =>
          obtain rfl := Except.ok.inj hsig
          rfl
      · refine ih (fun v hv => hws v (List.mem_cons_of_mem w hv)) hs₂ (hsigned.push ?_)
        rw [hname]
        exact d.witnesses_solid w (hws w List.mem_cons_self)

/-! ### A cycle -/

omit [LawfulNoteCrypto SK VK] [HttpTexts] in
/-- The tree that the publisher sees. -/
theorem NetInv.base_tree (h : NetInv d s) : Base d s.log.shared.tree s := by
  have hinv := reachable_inv h.log
  obtain ⟨E, hE, hle, hrow⟩ := h.row
  have hlen := hinv.length_tree
  refine ⟨h.log, List.take_prefix _ _, ?_, hlen.le, ?_⟩
  · rw [hlen]
    exact hinv.size_mem
  · rw [hrow.size_eq (hle.trans hinv.size_le), hlen]
    exact hle

omit [LawfulNoteCrypto SK VK] in
theorem writeCheckpoint_witnesses (hs : Ready d D s) (data : Bytes) :
    Witnesses d D (onStore (perform (.writeObject Api.checkpointPath data))) (fun _ _ => True)
      s := by
  have hput : ∀ t : Net H, NetInv d t → Ready d D t →
      NetInv d (t.onLog (t.log.shared.put Api.checkpointPath data)) ∧
        Ready d D (t.onLog (t.log.shared.put Api.checkpointPath data)) := by
    intro t hi ht
    have hstep : Rely t (t.onLog (t.log.shared.put Api.checkpointPath data)) :=
      ⟨_, Relation.ReflTransGen.single (.env (.publish t.log.shared data)), rfl⟩
    exact ⟨hi.rely hstep, ht.rely hstep⟩
  rw [perform, onStore_bind]
  refine witnesses_bind (P := fun _ _ => True) (witnesses_call hs fun t hr ht hi r t' he => ?_)
    fun r t ht _ => ?_
  · cases he with
    | store he =>
      cases he with
      | fault => exact ⟨hi, ht, trivial⟩
      | write => exact ⟨(hput t hi ht).1, (hput t hi ht).2, trivial⟩
      | writeLost => exact ⟨(hput t hi ht).1, (hput t hi ht).2, trivial⟩
  · cases r with
    | ok _ => exact witnesses_pure ht trivial
    | error e => exact witnesses_fail ht

/-- What a cycle does with the tree head that it has read. -/
theorem publishHead_witnesses (hs : Ready d D s) : Witnesses d D
    (publishHead d.signer d.witnesses d.externalWitnesses d.witnessQuorum d.origin D.length (mth D))
      (fun _ _ => True) s := by
  refine witnesses_bind (P := fun _ _ => True) ?_ fun last s₁ hs₁ _ => ?_
  · refine witnesses_call hs fun t hr ht hi r t' he => ?_
    cases he with
    | getLastPublished => exact ⟨hi, ht, trivial⟩
  split_ifs with hlast
  · exact witnesses_pure hs₁ trivial
  have hnew := SignedHead.new d.signer d.origin d.origin_solid d.signer_solid hs₁.base.length_le
  refine witnesses_bind (cosignAll_witnesses d.witnesses (fun _ hw => hw) hs₁ hnew)
    fun cosigned s₂ hs₂ hsigned => ?_
  refine witnesses_bind (witnessAll_witnesses d.externalWitnesses (fun _ hw => hw)
    (c := ⟨cosigned, [], [], 0⟩) hs₂ hsigned)
    fun c s₃ hs₃ _ => ?_
  split_ifs with hquorum
  · exact witnesses_pure hs₃ trivial
  refine witnesses_bind (P := fun _ _ => True) (writeCheckpoint_witnesses hs₃ _) fun _ s₄ hs₄ _ =>
    ?_
  refine witnesses_call hs₄ fun t hr ht hi r t' he => ?_
  cases he with
  | setLastPublished =>
    exact ⟨⟨hi.log, hi.row, hi.recorded, hi.good, hi.chain, hi.last⟩,
      ⟨⟨ht.base.log, ht.base.leaves, ht.base.mem, ht.base.le, ht.base.bound⟩, ht.known⟩, trivial⟩

/-- A cycle is safe, and at its end the publisher has recorded the last conflict. -/
theorem publish_safe (d : Deployment SK VK) {s : Net H} (hk : Known d s) :
    (d.publish : Publisher H Unit).Safe (PublishExec d) (NetInv d) Rely (fun _ _ => True)
      (fun _ => Known d) s := by
  rw [Deployment.publish, publishCheckpoint_eq, perform, onStore_bind, Prog.safe_bind,
    Prog.safe_bind]
  intro s₁ hr hi r s₂ he
  have hk₁ := hk.rely (hr.imp fun _ => And.right)
  cases he with
  | store he =>
    cases he with
    | fault => exact ⟨hi, trivial, hk₁⟩
    | getLogState =>
      refine ⟨hi, trivial, ?_⟩
      have hinv := reachable_inv hi.log
      have hready := publishHead_witnesses (D := s₁.log.shared.tree) ⟨hi.base_tree, hk₁⟩
      rw [hinv.length_tree] at hready
      have hsafe : (publishHead d.signer d.witnesses d.externalWitnesses d.witnessQuorum d.origin
          s₁.log.shared.size
          (mth s₁.log.shared.tree)).Safe (PublishExec d) (NetInv d) Rely (fun _ _ => True)
          (fun _ => Known d) s₁ :=
        Prog.safe_weaken (fun _ _ hx => hx.1.known) hready
      change Prog.Safe _ _ _ _ _ ((headRoot s₁.log.shared.db.getLogState).elim (.pure ())
        (publishHead d.signer d.witnesses d.externalWitnesses d.witnessQuorum d.origin
          s₁.log.shared.size)) s₁
      rw [headRoot_getLogState hinv]
      exact hsafe

/-! ### Runs -/

/-- The invariant of the system: a cycle under way is safe, and between cycles the publisher
knows of the last conflict. -/
structure Protocol.Good (d : Deployment SK VK) (p : Protocol H) : Prop where
  net : NetInv d p.net
  rest : p.cycle = none → Known d p.net
  cycle : ∀ c, p.cycle = some c →
    c.Safe (PublishExec d) (NetInv d) Rely (fun _ _ => True) (fun _ => Known d) p.net

omit [LawfulSha256Hash H] [LawfulNoteCrypto SK VK] in
theorem Protocol.Good.init (d : Deployment SK VK) :
    Protocol.Good d (⟨.init, none⟩ : Protocol H) := by
  refine ⟨⟨.refl, ⟨[], List.nil_prefix, Nat.zero_le _, rfl⟩, le_rfl, ?_, List.isChain_nil, ?_⟩, ?_,
    ?_⟩
  · intro event hevent
    cases hevent
  · intro body size delivered hlast
    cases hlast
  · intro _ body size hlast
    cases hlast
  · intro c hc
    cases hc

theorem Protocol.Good.step {p q : Protocol H} (hp : p.Good d) (h : Protocol.Step d p q) :
    q.Good d := by
  cases h with
  | log h =>
    have hrely : Rely _ _ := ⟨_, Relation.ReflTransGen.single h, rfl⟩
    exact ⟨hp.net.rely hrely, fun hc => (hp.rest hc).rely (hrely.imp fun _ => And.right),
      fun c hc => Prog.safe_stable Rely.trans
        (fun _ _ _ hk hr => hk.rely (hr.imp fun _ => And.right)) (hp.cycle c hc) hrely⟩
  | start =>
    refine ⟨hp.net, (by rintro ⟨⟩), ?_⟩
    rintro _ ⟨⟩
    exact publish_safe d (hp.rest rfl)
  | run h =>
    obtain ⟨hi, -, hk⟩ := hp.cycle _ rfl _ ⟨_, .refl, rfl⟩ hp.net _ _ h
    refine ⟨hi, (by rintro ⟨⟩), ?_⟩
    rintro _ ⟨⟩
    exact hk
  | done => exact ⟨hp.net, fun _ => hp.cycle _ rfl, by rintro _ ⟨⟩⟩
  | failed e => exact ⟨hp.net, fun _ => hp.cycle _ rfl, by rintro _ ⟨⟩⟩
  | restart => exact ⟨hp.net.restart, fun _ => known_restart, by rintro _ ⟨⟩⟩

theorem reachable_protocol {p : Protocol H} (h : Protocol.Reachable d p) : p.Good d := by
  induction h with
  | refl => exact .init d
  | tail _ hstep ih => exact ih.step hstep

omit [LawfulNoteCrypto SK VK] [HttpTexts] in
/-- The head of the witness is that of an earlier tree. -/
theorem NetInv.witnessed (h : NetInv d s) : ∃ size, size ≤ s.log.shared.size ∧
    s.witnessed d.origin.str = (size, mth (s.log.shared.leaves.take size)) ∧
    s.recorded d.url ≤ size := by
  obtain ⟨E, hE, hle, hrow⟩ := h.row
  have hsize := hrow.size_eq (hle.trans (reachable_inv h.log).size_le)
  refine ⟨E.length, hle, ?_, hsize ▸ h.recorded⟩
  rw [← List.prefix_iff_eq_take.mp hE]
  unfold Witness.RowOf at hrow
  unfold Net.witnessed WitnessDb.get
  cases hr : s.witness.rows d.origin.str with
  | none =>
    rw [hr] at hrow
    rw [show E = [] from hrow, mth_empty]
    rfl
  | some row =>
    rw [hr] at hrow
    obtain ⟨hsz, hroot⟩ := hrow
    rw [Option.map_some, Option.map_some, Option.getD_some, hsz, hroot,
      Storage.asU64_natCast (hle.trans (reachable_inv h.log).size_le)]

/-- The publisher and the witness never get stuck: the witness has the head of some earlier
tree, a request from its size is cosigned, any other gets a conflict with that size, and
the request after a conflict that was delivered starts from its size and is cosigned. -/
theorem reachable_witnessed (d : Deployment SK VK) {p : Protocol H} (h : Protocol.Reachable d p) :
    (∃ size, size ≤ p.net.log.shared.size ∧
      p.net.witnessed d.origin.str = (size, mth (p.net.log.shared.leaves.take size)) ∧
      p.net.recorded d.url ≤ size) ∧
    (∀ body size result delivered, .handled body size result delivered ∈ p.net.trace →
      ∃ (request : AddCheckpointRequest H) (cosigned : CosignedCheckpoint H),
        Sent body request cosigned ∧
        (request.oldSize = size → ∃ clock, result =
          .ok ⟨200, utf8 (d.witness.signer.cosignV1 cosigned.checkpoint clock).toLine⟩) ∧
        (request.oldSize ≠ size → result = .ok (WitnessError.conflict size).toResponse)) ∧
    (∀ body size, p.cycle = none →
      p.net.trace.getLast? =
        some (.handled body size (.ok (WitnessError.conflict size).toResponse) true) →
      p.net.recorded d.url = size) ∧
    ∀ before body size next after,
      p.net.trace = before ++
        .handled body size (.ok (WitnessError.conflict size).toResponse) true :: next :: after →
      ∀ body', next.body? = some body' →
        ∃ (request : AddCheckpointRequest H) (cosigned : CosignedCheckpoint H),
          Sent body' request cosigned ∧
          request.oldSize = size ∧
          ∀ size' result delivered, next = .handled body' size' result delivered → size' = size ∧
            ∃ clock, result =
              .ok ⟨200, utf8 (d.witness.signer.cosignV1 cosigned.checkpoint clock).toLine⟩ := by
  have hgood := reachable_protocol h
  refine ⟨hgood.net.witnessed, fun body size result delivered hmem => hgood.net.good _ hmem,
    fun body size hrest hlast => hgood.rest hrest body size hlast, ?_⟩
  intro before body size next after htrace body' hbody'
  have hfollows :=
    List.isChain_iff_forall_rel_of_append_cons_cons.mp hgood.net.chain htrace body size rfl
  have hnext : next.Good H d := hgood.net.good next (by rw [htrace]; simp)
  cases next with
  | restart => cases hbody'
  | lost b =>
    obtain rfl := Option.some.inj hbody'
    obtain ⟨request, cosigned, hsent⟩ := hnext
    exact ⟨request, cosigned, hsent, hfollows.1 _ _ _ rfl hsent, by rintro _ _ _ ⟨⟩⟩
  | handled b size' result delivered =>
    obtain rfl := Option.some.inj hbody'
    obtain ⟨request, cosigned, hsent, hok, -⟩ := hnext
    have hold := hfollows.1 _ _ _ rfl hsent
    refine ⟨request, cosigned, hsent, hold, ?_⟩
    rintro sz r dl hev
    obtain ⟨-, rfl, rfl, -⟩ := Event.handled.inj hev
    have hsize := hfollows.2 _ _ _ _ rfl
    exact ⟨hsize, hok (hold.trans hsize.symm)⟩

end

end

/-! ### A witness of three entries -/

section

open Note (StartKey)

attribute [local instance] Text.Base64.plainErrors Witness.plainTexts

/-- One log with one witness. -/
def oneDeployment : Deployment StartKey StartKey where
  signer := ⟨"log".toList, .mk, StartKey.start 4 []⟩
  origin := Note.logOrigin
  witnesses := []
  externalWitnesses := [startWitness]
  witnessQuorum := none
  witness := ⟨⟨"witness".toList, .mk, StartKey.start 4 []⟩,
    [⟨"log".toList, none, .mk, StartKey.start 4 [], "log".toList⟩]⟩
  url := "http://witness".toList
  knows := ⟨⟨_, rfl, rfl, rfl, rfl⟩⟩
  url_eq := by
    intro w hw _
    rw [List.mem_singleton.mp hw]
    rfl
  origin_solid := by decide
  signer_solid := by decide
  witnesses_solid := by simp
  external_solid := by
    intro w hw
    rw [List.mem_singleton.mp hw]
    decide

/-- The publisher loses its memory after a first cycle. Its next request is refused. -/
def refused (l : LogPool StartHash) : Net StartHash :=
  Protocol.published oneDeployment 2
    (Protocol.published oneDeployment 1 { Net.init with log := l }).restart

theorem reachable_witnessed_three : ∃ p : Protocol StartHash, Protocol.Reachable oneDeployment p ∧
    p.net.recorded oneDeployment.url = 3 ∧ ∃ size, size ≤ p.net.log.shared.size ∧
      p.net.witnessed oneDeployment.origin.str = (size, mth (p.net.log.shared.leaves.take size)) ∧
      p.net.recorded oneDeployment.url ≤ size := by
  obtain ⟨ts, h⟩ := reachable_cycled reachable_threePending 10
  have hlog := Protocol.reachable_log (d := oneDeployment) (Concurrent.Sys.reachable_idle h)
  have hfirst := Protocol.reachable_published hlog 1
  have hsecond := Protocol.reachable_published (hfirst.tail .restart) 2
  have hrecorded : (refused ⟨cycled 10 threePending, []⟩).recorded oneDeployment.url = 3 := by
    decide +kernel
  exact ⟨_, hsecond, hrecorded, (reachable_witnessed oneDeployment hsecond).1⟩

end

end Siglog.Worker
