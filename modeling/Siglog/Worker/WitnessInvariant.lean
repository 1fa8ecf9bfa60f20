import Siglog.Worker.WitnessProtocol
import Mathlib.Data.List.Chain

/-! What the publisher and the witness know of each other. The witness has the head of
some earlier tree of the log, and the publisher has recorded at most its size. A request
is refused only if it starts from another size, and then the next one starts from the
size of the refusal. -/

namespace Siglog.Worker

open Concurrent (Prog)
open Note (NoteCrypto LawfulNoteCrypto CheckpointSigner CosignedCheckpoint)
open Rfc (mth)
open Text (Str joinLines utf8 fromUtf8 fromUtf8_utf8)
open Text.Base64 (DecodeErrors)
open Witness (WitnessDb WitnessError AddCheckpointRequest Response HttpTexts RowOf SignedHead
  proofFrom requestBody)

variable {SK VK H : Type} [NoteCrypto SK VK] [Sha256Hash H]

/-! ### Events -/

section

variable [DecodeErrors]

/-- What a request says. -/
structure Sent (body : Bytes) (request : AddCheckpointRequest H) (cosigned : CosignedCheckpoint H) :
    Prop where
  parsed : ∃ text, fromUtf8 body = some text ∧ AddCheckpointRequest.fromAscii text = .ok request
  checkpoint : CosignedCheckpoint.fromText request.checkpoint = .ok cosigned

theorem Sent.oldSize_eq {body : Bytes} {request request' : AddCheckpointRequest H}
    {cosigned cosigned' : CosignedCheckpoint H}
    (h : Sent body request cosigned) (h' : Sent body request' cosigned') :
    request.oldSize = request'.oldSize := by
  obtain ⟨text, htext, hrequest⟩ := h.parsed
  obtain ⟨text', htext', hrequest'⟩ := h'.parsed
  rw [htext] at htext'
  obtain rfl := Option.some.inj htext'
  rw [hrequest] at hrequest'
  rw [Except.ok.inj hrequest']

def conflict (size : ℕ) : Except (Fault WitnessError) Response :=
  .ok (WitnessError.conflict size).toResponse

namespace Event

/-- The body of a request. -/
def body? : Event → Option Bytes
  | .restart => none
  | .lost body => some body
  | .handled body _ _ _ => some body

variable (H) in
/-- A request that starts from the size of the witness is cosigned; any other gets a conflict. -/
def Good (d : Deployment SK VK) : Event → Prop
  | .restart => True
  | .lost body =>
    ∃ (request : AddCheckpointRequest H) (cosigned : CosignedCheckpoint H),
      Sent body request cosigned
  | .handled body size result _ =>
    ∃ (request : AddCheckpointRequest H) (cosigned : CosignedCheckpoint H),
      Sent body request cosigned ∧
      (request.oldSize = size → ∃ clock, result =
        .ok ⟨200, utf8 (d.witness.signer.cosignV1 cosigned.checkpoint clock).toLine⟩) ∧
      (request.oldSize ≠ size → result = conflict size)

variable (H) in
/-- What follows the delivery of a conflict starts from its size, which is still that of the
witness. -/
def Follows (event next : Event) : Prop :=
  ∀ body size, event = .handled body size (conflict size) true →
    (∀ (body' : Bytes) (request : AddCheckpointRequest H) (cosigned : CosignedCheckpoint H),
      next.body? = some body' →
      Sent body' request cosigned → request.oldSize = size) ∧
    ∀ body' size' result delivered, next = .handled body' size' result delivered → size' = size

end Event

end

/-! ### The invariant -/

variable [DecidableEq H] [DecodeErrors]

structure NetInv (d : Deployment SK VK) (s : Net H) : Prop where
  log : Reachable s.log
  row : ∃ E, E <+: s.log.shared.leaves ∧ E.length ≤ s.log.shared.size ∧
  RowOf d.origin.str E s.witness
  recorded : s.recorded d.url ≤ s.witness.size d.origin.str
  good : ∀ event ∈ s.trace, event.Good H d
  chain : s.trace.IsChain (Event.Follows H)
  last : ∀ body size delivered, s.trace.getLast? =
    some (.handled body size (conflict size) delivered) →
    s.witness.size d.origin.str = size

/-- The publisher has recorded the size of the last conflict. -/
def Known (d : Deployment SK VK) (s : Net H) : Prop :=
  ∀ body size, s.trace.getLast? = some (.handled body size (conflict size) true) →
    s.recorded d.url = size

/-- The tree over `D` was integrated, and the witness has not gone beyond it. -/
structure Base (d : Deployment SK VK) (D : List H) (s : Net H) : Prop where
  log : Reachable s.log
  leaves : D <+: s.log.shared.leaves
  mem : D.length ∈ s.log.shared.sizes
  le : D.length ≤ s.log.shared.size
  bound : s.witness.size d.origin.str ≤ D.length

/-- The log moves and nothing else. -/
def Rely (s t : Net H) : Prop :=
  ∃ l, Relation.ReflTransGen logSys.Step s.log l ∧ t = { s with log := l }

omit [DecodeErrors] in
theorem Rely.trans (a b c : Net H) (h : Rely a b) (h' : Rely b c) : Rely a c := by
  obtain ⟨l, hl, rfl⟩ := h
  obtain ⟨l', hl', rfl⟩ := h'
  exact ⟨l', hl.trans hl', rfl⟩

section

variable [LawfulSha256Hash H] {d : Deployment SK VK} {D : List H} {s t : Net H}

omit [DecodeErrors] in
theorem Base.length_le (h : Base d D s) : D.length ≤ i64Max :=
  h.le.trans (reachable_inv h.log).size_le

omit [DecodeErrors] in
theorem Base.rely (h : Base d D s) (hr : Rely s t) : Base d D t := by
  obtain ⟨l, hl, rfl⟩ := hr
  have hle := run_le h.log hl
  exact ⟨Relation.ReflTransGen.trans h.log hl, h.leaves.trans (hle.log.map _), hle.sizes _ h.mem,
    h.le.trans hle.size, h.bound⟩

theorem NetInv.rely (h : NetInv d s) (hr : Rely s t) : NetInv d t := by
  obtain ⟨l, hl, rfl⟩ := hr
  have hle := run_le h.log hl
  obtain ⟨E, hE, hsize, hrow⟩ := h.row
  exact ⟨Relation.ReflTransGen.trans h.log hl,
    ⟨E, hE.trans (hle.log.map _), hsize.trans hle.size, hrow⟩, h.recorded, h.good, h.chain, h.last⟩

omit [DecidableEq H] [LawfulSha256Hash H] [DecodeErrors] in
theorem Known.rely (h : Known d s) (hr : ∃ l, t = { s with log := l }) : Known d t := by
  obtain ⟨l, rfl⟩ := hr
  exact h

/-! ### Operations that are not requests -/

omit [LawfulSha256Hash H] [DecodeErrors] [DecidableEq H] in
theorem recorded_setSize (s : Net H) (url : Str) (size : ℕ) (u : Str) :
    (s.setSize url size).recorded u = if u = url then size else s.recorded u := by
  unfold Net.recorded Net.setSize
  dsimp only
  split_ifs <;> rfl

omit [LawfulSha256Hash H] in
theorem NetInv.setSize (h : NetInv d s) {url : Str} {size : ℕ}
    (hsize : d.url = url → size ≤ s.witness.size d.origin.str) : NetInv d (s.setSize url size) := by
  refine ⟨h.log, h.row, ?_, h.good, h.chain, h.last⟩
  rw [recorded_setSize]
  split_ifs with hu
  · exact hsize hu
  · exact h.recorded

omit [LawfulSha256Hash H] [DecodeErrors] [DecidableEq H] in
theorem Known.setSize {url : Str} {size : ℕ} (h : d.url ≠ url → Known d s)
    (hsize : d.url = url →
      ∀ body sz, s.trace.getLast? = some (.handled body sz (conflict sz) true) → size = sz) :
    Known d (s.setSize url size) := by
  intro body sz hlast
  rw [recorded_setSize]
  split_ifs with hu
  · exact hsize hu body sz hlast
  · exact h hu body sz hlast

omit [LawfulSha256Hash H] [DecodeErrors] in
theorem Base.setSize (h : Base d D s) (url : Str) (size : ℕ) : Base d D (s.setSize url size) :=
  ⟨h.log, h.leaves, h.mem, h.le, h.bound⟩

omit [LawfulSha256Hash H] in
/-- The publisher forgets what it has recorded. -/
theorem NetInv.restart (h : NetInv d s) : NetInv d s.restart := by
  refine ⟨h.log, h.row, Nat.zero_le _, ?_, ?_, ?_⟩
  · intro event hevent
    rcases List.mem_append.mp hevent with hevent | hevent
    · exact h.good event hevent
    · rw [List.mem_singleton.mp hevent]
      trivial
  · refine List.isChain_append.mpr ⟨h.chain, List.isChain_singleton _, ?_⟩
    rintro event - next hnext body size -
    obtain rfl : Event.restart = next := by simpa using hnext
    refine ⟨fun _ _ _ hbody => ?_, fun _ _ _ _ hhandled => ?_⟩
    · cases hbody
    · cases hhandled
  · intro body size delivered hlast
    rw [Net.restart, List.getLast?_concat] at hlast
    cases hlast

omit [LawfulSha256Hash H] [DecodeErrors] [DecidableEq H] in
theorem known_restart : Known d s.restart := by
  intro body size hlast
  rw [Net.restart, List.getLast?_concat] at hlast
  cases hlast

end

/-! ### Requests -/

section

variable [LawfulSha256Hash H] {d : Deployment SK VK} {D : List H} {s : Net H}
  {cosigned : CosignedCheckpoint H} {oldSize : ℕ}

/-- The request that the publisher makes for a witness of the recorded size. -/
def bodyOf (D : List H) (cosigned : CosignedCheckpoint H) (oldSize : ℕ) : Bytes :=
  utf8 (requestBody oldSize (proofFrom oldSize D) cosigned.toText)

theorem sent_bodyOf (hb : Base d D s) (hsigned : SignedHead d.signer d.origin D cosigned)
    (hold : oldSize ≤ D.length) :
    Sent (bodyOf D cosigned oldSize) ⟨oldSize, proofFrom oldSize D, joinLines cosigned.noteLines⟩
      cosigned := by
  have hD := hb.length_le
  refine ⟨⟨_, fromUtf8_utf8 _, ?_⟩, hsigned.fromText⟩
  exact Witness.fromAscii_requestBody hsigned.plain (by unfold i64Max at hD; omega)
    (Witness.length_proofFrom_le hold hD)

/-- A new event of a request, after which the witness has the head over `F`. -/
theorem NetInv.record (h : NetInv d s) (hk : Known d s) (hb : Base d D s)
    (hold : s.recorded d.url = oldSize)
    (hsigned : SignedHead d.signer d.origin D cosigned) (event : Event) (db : WitnessDb H)
    (hbody : event.body? = some (bodyOf D cosigned oldSize)) (hgood : event.Good H d)
    (hsize : ∀ body size result delivered, event = .handled body size result delivered →
      size = s.witness.size d.origin.str)
    {F : List H} (hF : F <+: D) (hrow : RowOf d.origin.str F db)
    (hle : s.witness.size d.origin.str ≤ F.length)
    (hconflict : ∀ body size delivered, event = .handled body size (conflict size) delivered →
      F.length = size) :
    NetInv d (s.record event db) ∧ Base d D (s.record event db) ∧
    db.size d.origin.str = F.length := by
  have hFD := hF.length_le
  have hFsize := hrow.size_eq (hFD.trans hb.length_le)
  have holdD : oldSize ≤ D.length := hold ▸ h.recorded.trans hb.bound
  refine ⟨⟨h.log, ⟨F, hF.trans hb.leaves, hFD.trans hb.le, hrow⟩, ?_, ?_, ?_, ?_⟩,
    ⟨hb.log, hb.leaves, hb.mem, hb.le, hFsize.trans_le hFD⟩, hFsize⟩
  · exact h.recorded.trans (hle.trans hFsize.ge)
  · intro event' hevent'
    rcases List.mem_append.mp hevent' with hevent' | hevent'
    · exact h.good event' hevent'
    · rwa [List.mem_singleton.mp hevent']
  · refine List.isChain_append.mpr ⟨h.chain, List.isChain_singleton _, ?_⟩
    rintro last hlast next hnext body size rfl
    obtain rfl : event = next := by simpa using hnext
    have hrecorded := hk body size hlast
    refine ⟨fun body' request cosigned' hbody' hsent => ?_,
      fun body' size' result delivered hhandled => ?_⟩
    · rw [hbody] at hbody'
      obtain rfl := Option.some.inj hbody'
      rw [hsent.oldSize_eq (sent_bodyOf hb hsigned holdD), ← hold, hrecorded]
    · rw [hsize body' size' result delivered hhandled, h.last body size true hlast]
  · intro body size delivered hlast
    rw [Net.record, List.getLast?_concat] at hlast
    exact hFsize.trans (hconflict body size delivered (Option.some.inj hlast))

/-- A request that never reaches the witness. -/
theorem NetInv.lost (h : NetInv d s) (hk : Known d s) (hb : Base d D s)
    (hold : s.recorded d.url = oldSize) (hsigned : SignedHead d.signer d.origin D cosigned) :
    NetInv d (s.record (.lost (bodyOf D cosigned oldSize)) s.witness) ∧
      Base d D (s.record (.lost (bodyOf D cosigned oldSize)) s.witness) := by
  have holdD : oldSize ≤ D.length := hold ▸ h.recorded.trans hb.bound
  obtain ⟨E, hE, hEsize, hrow⟩ := h.row
  have hlen := hrow.size_eq (hEsize.trans (reachable_inv h.log).size_le)
  have hED : E <+: D := List.prefix_of_prefix_length_le hE hb.leaves (hlen ▸ hb.bound)
  obtain ⟨hinv, hbase, -⟩ :=
    h.record hk hb hold hsigned (.lost (bodyOf D cosigned oldSize)) s.witness rfl
    ⟨_, _, sent_bodyOf hb hsigned holdD⟩ (by rintro _ _ _ _ ⟨⟩) hED hrow hlen.le
      (by rintro _ _ _ ⟨⟩)
  exact ⟨hinv, hbase⟩

variable [LawfulNoteCrypto SK VK] [HttpTexts]

/-- A request that the witness handles. It is cosigned, or refused with the size of the witness. -/
theorem NetInv.handled (h : NetInv d s) (hk : Known d s) (hb : Base d D s)
    (hold : s.recorded d.url = oldSize)
    (hsigned : SignedHead d.signer d.origin D cosigned) (clock : UInt64) (delivered : Bool) :
    let body := bodyOf D cosigned oldSize
    let size := s.witness.size d.origin.str
    let t := s.record (.handled body size (handle d clock body s.witness).1 delivered)
      (handle d clock body s.witness).2
    NetInv d t ∧ Base d D t ∧
      ((handle d clock body s.witness).1 = conflict size ∧ t.witness.size d.origin.str = size ∨
        (handle d clock body s.witness).1 =
          .ok ⟨200, utf8 (d.witness.signer.cosignV1 cosigned.checkpoint clock).toLine⟩ ∧
          t.witness.size d.origin.str = D.length) := by
  intro body size t
  have holdD : oldSize ≤ D.length := hold ▸ h.recorded.trans hb.bound
  obtain ⟨E, hE, hEsize, hrow⟩ := h.row
  have hlen : size = E.length := hrow.size_eq (hEsize.trans (reachable_inv h.log).size_le)
  have hED : E <+: D := List.prefix_of_prefix_length_le hE hb.leaves (hlen ▸ hb.bound)
  obtain ⟨db, hrun, hrow'⟩ :=
    Witness.runAlone_handler d.knows hrow hED hb.length_le hsigned holdD clock
  have hhandle : handle d clock body s.witness = _ := hrun
  have hsent := sent_bodyOf hb hsigned holdD
  by_cases heq : oldSize = E.length
  · rw [if_pos heq] at hhandle hrow'
    have hnot : ∀ sz, conflict sz ≠
        .ok ⟨200, utf8 (d.witness.signer.cosignV1 cosigned.checkpoint clock).toLine⟩ := by
      intro sz hc
      have := congrArg Response.status (Except.ok.inj hc)
      cases this
    have hrec :=
      h.record hk hb hold hsigned (.handled body size (handle d clock body s.witness).1 delivered)
      db rfl ⟨_, _, hsent, fun _ => ⟨clock, by rw [hhandle]⟩,
        fun hne => absurd (heq.trans hlen.symm) hne⟩
      (by rintro _ _ _ _ ⟨⟩; rfl) (List.prefix_refl D) hrow' hb.bound ?_
    · change NetInv d (s.record _ (handle d clock body s.witness).2) ∧
        Base d D (s.record _ (handle d clock body s.witness).2) ∧
        (_ ∨ _ ∧ (handle d clock body s.witness).2.size d.origin.str = _)
      rw [hhandle] at hrec ⊢
      exact ⟨hrec.1, hrec.2.1, .inr ⟨rfl, hrec.2.2⟩⟩
    · intro body' sz delivered' hev
      rw [hhandle] at hev
      exact absurd (Event.handled.inj hev).2.2.1.symm (hnot sz)
  · rw [if_neg heq] at hhandle hrow'
    have hrec :=
      h.record hk hb hold hsigned (.handled body size (handle d clock body s.witness).1 delivered)
      db rfl ⟨_, _, hsent, fun he => absurd (he.trans hlen) heq, fun _ => by
        rw [hhandle, hlen]; rfl⟩
      (by rintro _ _ _ _ ⟨⟩; rfl) hED hrow' hlen.le ?_
    · change NetInv d (s.record _ (handle d clock body s.witness).2) ∧
        Base d D (s.record _ (handle d clock body s.witness).2) ∧
        (_ ∧ (handle d clock body s.witness).2.size d.origin.str = _ ∨ _)
      rw [hhandle] at hrec ⊢
      exact ⟨hrec.1, hrec.2.1, .inl ⟨by rw [hlen]; rfl, hrec.2.2.trans hlen.symm⟩⟩
    · intro body' sz delivered' hev
      rw [← hlen]
      exact (Event.handled.inj hev).2.1

end

end Siglog.Worker
