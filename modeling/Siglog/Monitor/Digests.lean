import Siglog.Monitor.Recorded

/-! One package content, many spellings. The indices of the Conda monitor compare the texts
of the SHA-256 fields, so they keep digests apart exactly as long as no digest is spelled in
two ways. -/

namespace Siglog.Monitor

open Text (Str)

variable {H : Type}

/-! ### Digests -/

section

variable [Text.Hex.HexErrors]

/-- The digest that a text spells in hexadecimal. -/
def digest (text : Str) : Option Bytes :=
  match Text.Hex.decode text with
  | .ok bytes => if bytes.length = 32 then some bytes else none
  | .error _ => none

def SameDigest (a b : Str) : Prop := ∃ d, digest a = some d ∧ digest b = some d

/-- Another spelling of the same digest. -/
def Respells (a b : Str) : Prop := a ≠ b ∧ SameDigest a b

variable [EntryJson]

def KeptApart (kept : List Validated) : Prop :=
  ∀ v ∈ kept, ∀ w ∈ kept, v.index ≠ w.index → ¬ SameDigest v.entry.sha256 w.entry.sha256

/-- If the step rejects an entry for its filename, an earlier valid entry has that filename
and another digest. -/
def MonitorStep.RejectsOthers (step : MonitorStep) (valid : List Validated) : Prop :=
  ∀ index data filename firstHash currentHash first current,
    step.event = .validate index data
      (.invalid (.duplicateFilename filename firstHash currentHash first current)) →
    ∃ entry, parseEntry data = .ok entry ∧ entry.filename = filename ∧ entry.sha256 = currentHash ∧
      ∃ v ∈ valid, v.index < index ∧ v.index.toNat = first ∧ v.entry.filename = filename ∧
        v.entry.sha256 = firstHash ∧
        ¬ SameDigest firstHash currentHash

/-- No digest is kept twice, and no filename is rejected for its own digest. -/
structure DigestsUnique (steps : List MonitorStep) : Prop where
  kept : KeptApart (keeping steps).kept
  rejected : ∀ step ∈ steps, step.RejectsOthers (validated steps)

/-- An entry whose SHA-256 text is not on record, but is another spelling of the digest that
is on record with its filename, or, for a new filename, of that of an entry that is kept. -/
def MonitorStep.Respelled [Hasher] (step : MonitorStep) (kept : List Validated) : Prop :=
  ∃ index data result entry, step.event = .validate index data result ∧
    parseEntry data = .ok entry ∧
    step.before.sha256Index.lookup (hashKey entry.sha256) = none ∧
    match step.before.filenameIndex.lookup (hashKey entry.filename) with
    | none => ∃ v ∈ kept, Respells v.entry.sha256 entry.sha256
    | some (_, value) => ∃ t, value = some t ∧ Respells t entry.sha256

variable {steps : List MonitorStep} {step : MonitorStep}

theorem digestsUnique_concat (h : DigestsUnique steps) : DigestsUnique (steps ++ [step]) ↔
    KeptApart (keeping (steps ++ [step])).kept ∧
    step.RejectsOthers (validated (steps ++ [step])) := by
  constructor
  · exact fun h => ⟨h.kept, h.rejected step (by simp)⟩
  · rintro ⟨hkept, hlast⟩
    refine ⟨hkept, fun other hother => ?_⟩
    rcases List.mem_append.mp hother with hother | hother
    · intro index data filename firstHash currentHash first current hevent
      obtain ⟨entry, hparse, hname, hsha, v, hv, hrest⟩ :=
        h.rejected other hother _ _ _ _ _ _ _ hevent
      refine ⟨entry, hparse, hname, hsha, v, ?_, hrest⟩
      rw [validated_concat]
      exact List.mem_append_left _ hv
    · obtain rfl := List.mem_singleton.mp hother
      exact hlast

/-- A step after which no more is kept than before, and which rejects no filename. -/
theorem digestsUnique_skip (h : DigestsUnique steps)
    (hkept : (keeping (steps ++ [step])).kept ⊆ (keeping steps).kept)
    (hevent : ∀ index data filename firstHash currentHash first current,
      step.event ≠ .validate index data
        (.invalid (.duplicateFilename filename firstHash currentHash first current))) :
    DigestsUnique (steps ++ [step]) := by
  rw [digestsUnique_concat h]
  refine ⟨fun v hv w hw => h.kept v (hkept hv) w (hkept hw), ?_⟩
  intro index data filename firstHash currentHash first current heq
  exact absurd heq (hevent _ _ _ _ _ _ _)

variable [Hasher] {origin : Str} {s : Session H}

omit [Text.Hex.HexErrors] [EntryJson] in
/-- The SHA-256 of an entry that is kept is on record. -/
theorem Recorded.lookup_kept {valid : List Validated} {k : Keeping} (h : Recorded origin valid k s)
    {v : Validated}
    (hv : v ∈ k.kept) : s.memory.sha256Index.lookup (hashKey v.entry.sha256) ≠ none := by
  rw [Ne, ContentIndex.lookup_eq_none]
  intro hfresh
  rcases List.mem_append.mp hv with hv | hv
  · exact (h.committed v hv).1 hfresh.index
  · have hsha : v.pendingEntry .sha256 ∈ s.memory.sha256Index.pending :=
      (h.pending .sha256).symm ▸ List.mem_map_of_mem hv
    exact hfresh.pending _ hsha rfl

theorem digestsUnique_validate (hkey : Function.Injective hashKey) (hunique : DigestsUnique steps)
    (h : Recorded origin (validated steps) (keeping steps) s) {index : UInt64}
    (hlt : ∀ v ∈ validated steps, v.index.toNat < index.toNat) {data : Bytes}
    {result : ValidationResult} {memory : CondaMonitor}
    (hverdict : Verdict s.memory index.toNat data result memory) :
    DigestsUnique (steps ++ [⟨s.memory, .validate index data result⟩]) ↔
      ¬ MonitorStep.Respelled ⟨s.memory, .validate index data result⟩ (keeping steps).kept := by
  have hkept : ∀ e, (keeping (steps ++ [⟨s.memory, .validate index data (.invalid e)⟩])).kept =
      (keeping steps).kept := by
    intro e
    rw [keeping_concat, Keeping.next_invalid]
  have hsubset : ∀ e, (keeping (steps ++ [⟨s.memory, .validate index data (.invalid e)⟩])).kept ⊆
      (keeping steps).kept := by
    intro e
    rw [hkept]
    exact List.Subset.refl _
  cases hverdict with
  | @unparsed e hparse =>
    refine iff_of_true (digestsUnique_skip hunique (hsubset _) ?_) ?_
    · rintro _ _ _ _ _ _ _ ⟨⟩
      rw [parseEntry] at hparse
      cases hjson : EntryJson.fromSlice data <;> simp [hjson, Except.mapError] at hparse
    · rintro ⟨_, _, _, entry, ⟨⟩, hparse', -⟩
      cases hparse.symm.trans hparse'
  | duplicateSha256 hparse hsha =>
    refine iff_of_true (digestsUnique_skip hunique (hsubset _) ?_) ?_
    · rintro _ _ _ _ _ _ _ ⟨⟩
    · rintro ⟨_, _, _, entry, ⟨⟩, hparse', hsha', -⟩
      obtain rfl := Except.ok.inj (hparse.symm.trans hparse')
      exact hsha hsha'
  | @duplicateFilename entry first value hparse hsha hfile =>
    obtain ⟨v, hv, hfilename, hrecord⟩ :
        ∃ v ∈ validated steps, hashKey v.entry.filename = hashKey entry.filename ∧
        (first, value) = (v.index.toNat, some v.entry.sha256) := by
      have hrecord :
          (s.memory.get .filename).lookup (hashKey entry.filename) = some (first, value) := hfile
      exact h.lookup hrecord
    obtain ⟨rfl, rfl⟩ := Prod.mk.inj hrecord
    have hne : v.entry.sha256 ≠ entry.sha256 := by
      intro heq
      exact h.lookup_sha256 hfile (heq ▸ hsha)
    have hrespelled : MonitorStep.Respelled
        ⟨s.memory, .validate index data (.invalid (.duplicateFilename entry.filename
        ((some v.entry.sha256).getD []) entry.sha256 v.index.toNat index.toNat))⟩
        (keeping steps).kept ↔
          SameDigest v.entry.sha256 entry.sha256 := by
      constructor
      · rintro ⟨_, _, _, entry', ⟨⟩, hparse', -, hmatch⟩
        obtain rfl := Except.ok.inj (hparse.symm.trans hparse')
        dsimp only at hmatch
        rw [hfile] at hmatch
        obtain ⟨t, ht, -, hsame⟩ := hmatch
        obtain rfl := Option.some.inj ht
        exact hsame
      · intro hsame
        refine ⟨_, _, _, entry, rfl, hparse, hsha, ?_⟩
        dsimp only
        rw [hfile]
        exact ⟨_, rfl, hne, hsame⟩
    rw [digestsUnique_concat hunique, hrespelled, hkept]
    constructor
    · rintro ⟨-, hlast⟩
      obtain ⟨-, -, -, -, w, -, -, -, -, -, hdiffer⟩ := hlast _ _ _ _ _ _ _ rfl
      exact hdiffer
    · intro hdiffer
      refine ⟨hunique.kept, ?_⟩
      rintro _ _ _ _ _ _ _ ⟨⟩
      refine ⟨entry, hparse, rfl, rfl, v, ?_, UInt64.lt_iff_toNat_lt.mpr (hlt v hv), rfl,
        hkey hfilename, rfl, hdiffer⟩
      rw [validated_concat]
      exact List.mem_append_left _ hv
  | @valid entry memory hparse hsha hfile hindex hpending =>
    have hnew : (keeping (steps ++ [⟨s.memory, .validate index data .valid⟩])).kept =
        (keeping steps).kept ++ [⟨index, entry⟩] := by
      rw [keeping_concat, Keeping.kept, Keeping.kept, List.append_assoc]
      simp only [Keeping.next, validated_valid index hparse, Option.toList_some]
    have hne : ∀ v ∈ (keeping steps).kept, v.entry.sha256 ≠ entry.sha256 := by
      intro v hv heq
      exact h.lookup_kept hv (heq ▸ hsha)
    have hrespelled :
        MonitorStep.Respelled ⟨s.memory, .validate index data .valid⟩ (keeping steps).kept ↔
        ∃ v ∈ (keeping steps).kept, SameDigest v.entry.sha256 entry.sha256 := by
      constructor
      · rintro ⟨_, _, _, entry', ⟨⟩, hparse', -, hmatch⟩
        obtain rfl := Except.ok.inj (hparse.symm.trans hparse')
        dsimp only at hmatch
        rw [hfile] at hmatch
        obtain ⟨v, hv, -, hsame⟩ := hmatch
        exact ⟨v, hv, hsame⟩
      · rintro ⟨v, hv, hsame⟩
        refine ⟨_, _, _, entry, rfl, hparse, hsha, ?_⟩
        dsimp only
        rw [hfile]
        exact ⟨v, hv, hne v hv, hsame⟩
    rw [digestsUnique_concat hunique, hrespelled, hnew]
    constructor
    · rintro ⟨hapart, -⟩ ⟨v, hv, hsame⟩
      have hearlier := (hlt v (h.kept hv)).ne
      exact hapart v (List.mem_append_left _ hv) ⟨index, entry⟩ (by simp)
        (fun heq => hearlier (congrArg UInt64.toNat heq)) hsame
    · intro hdiffer
      refine ⟨fun v hv w hw hindices hsame => ?_, by rintro _ _ _ _ _ _ _ ⟨⟩⟩
      rcases List.mem_append.mp hv with hv | hv
      · rcases List.mem_append.mp hw with hw | hw
        · exact hunique.kept v hv w hw hindices hsame
        · obtain rfl := List.mem_singleton.mp hw
          exact hdiffer ⟨v, hv, hsame⟩
      · obtain rfl := List.mem_singleton.mp hv
        rcases List.mem_append.mp hw with hw | hw
        · obtain ⟨d, hd, hd'⟩ := hsame
          exact hdiffer ⟨w, hw, d, hd', hd⟩
        · exact hindices (congrArg Validated.index (List.mem_singleton.mp hw).symm)

omit [Text.Hex.HexErrors] [Hasher] in
/-- What is kept does not grow by a step that is no validation. -/
theorem kept_subset {k : Keeping} {event : MonitorEvent}
    (h : ∀ index data result, event ≠ .validate index data result) :
    (k.next event).kept ⊆ k.kept := by
  cases event with
  | validate index data result => exact absurd rfl (h index data result)
  | commit ok =>
    cases ok with
    | false => simp [Keeping.next, Keeping.kept, MonitorEvent.validated]
    | true => simp [Keeping.next, Keeping.kept]
  | rollback => simp [Keeping.next, Keeping.kept]
  | load ok => simp [Keeping.next, Keeping.kept, MonitorEvent.validated]

theorem digestsUnique_other (hunique : DigestsUnique steps)
    (h : ∀ index data result, step.event ≠ .validate index data result) :
    DigestsUnique (steps ++ [step]) ↔ ¬ step.Respelled (keeping steps).kept := by
  refine iff_of_true (digestsUnique_skip hunique ?_ fun _ _ _ _ _ _ _ => h _ _ _) ?_
  · rw [keeping_concat]
    exact kept_subset h
  · rintro ⟨index, data, result, -, hevent, -⟩
    exact h index data result hevent

/-- One step more. -/
theorem digestsUnique_iff_concat
    (ih : (∀ pre, pre <+: steps → DigestsUnique pre) ↔
      ∀ pre step, pre ++ [step] <+: steps → ¬ MonitorStep.Respelled step (keeping pre).kept)
    (hstep : DigestsUnique steps →
      (DigestsUnique (steps ++ [step]) ↔ ¬ step.Respelled (keeping steps).kept)) :
    (∀ pre, pre <+: steps ++ [step] → DigestsUnique pre) ↔
      ∀ pre other, pre ++ [other] <+: steps ++ [step] →
        ¬ MonitorStep.Respelled other (keeping pre).kept := by
  have hsub : steps <+: steps ++ [step] := List.prefix_append _ _
  constructor
  · intro h pre other hpre
    rcases List.prefix_concat_iff.mp hpre with heq | hpre
    · obtain ⟨rfl, hlast⟩ := List.append_inj' heq rfl
      obtain rfl := List.singleton_inj.mp hlast
      exact (hstep (h pre hsub)).mp (h _ List.prefix_rfl)
    · exact ih.mp (fun p hp => h p (hp.trans hsub)) pre other hpre
  · intro h pre hpre
    have hall := ih.mpr fun p other hp => h p other (hp.trans hsub)
    rcases List.prefix_concat_iff.mp hpre with rfl | hpre
    · exact (hstep (hall steps List.prefix_rfl)).mpr (h steps step List.prefix_rfl)
    · exact hall pre hpre

/-- In each state of a run no digest is kept twice and no filename is rejected for its own
digest, exactly if no step of the run respells a digest. -/
theorem digestsUnique_iff (hkey : Function.Injective hashKey) (h : MonitorRun origin steps s) :
    (∀ pre, pre <+: steps → DigestsUnique pre) ↔
      ∀ pre step, pre ++ [step] <+: steps → ¬ MonitorStep.Respelled step (keeping pre).kept := by
  induction h with
  | start hdb =>
    refine iff_of_true (fun pre hpre => ?_) fun pre step hpre => ?_
    · obtain rfl := List.prefix_nil.mp hpre
      exact ⟨by simp [KeptApart, keeping, Keeping.kept], by simp⟩
    · simp at hpre
  | validate h hindex hp ih =>
    obtain ⟨_, memory, hresult, rfl, hverdict⟩ :=
      ends_performs (h.recorded.ends_validate (index_lt hindex) _) hp
    obtain rfl := Except.ok.inj hresult
    exact digestsUnique_iff_concat ih fun hunique =>
      digestsUnique_validate hkey hunique h.recorded (index_lt hindex) hverdict
  | commit h hp ih =>
    exact digestsUnique_iff_concat ih fun hunique => digestsUnique_other hunique (by simp)
  | rollback h hp ih =>
    exact digestsUnique_iff_concat ih fun hunique => digestsUnique_other hunique (by simp)
  | load h hp ih =>
    exact digestsUnique_iff_concat ih fun hunique => digestsUnique_other hunique (by simp)

omit [Text.Hex.HexErrors] in
/-- A valid entry is staged. -/
theorem performs_valid {i : ℕ} {data : Bytes} {entry : CondaEntry}
    (hparse : parseEntry data = .ok entry)
    (hsha : s.memory.sha256Index.check (hashKey entry.sha256) i none = none)
    (hfile : s.memory.filenameIndex.check (hashKey entry.filename) i (some entry.sha256) = none) :
    Performs (validateEntry i data) s (.ok .valid)
      ⟨s.db, s.memory.sha256Index.stage (hashKey entry.sha256) i none,
      s.memory.filenameIndex.stage (hashKey entry.filename) i (some entry.sha256)⟩ := by
  have hcheckSha : SessionExec s (.index .sha256 (.check (hashKey entry.sha256) i none)) none s :=
    hsha ▸ SessionExec.index (s := s) .sha256 (.check (hashKey entry.sha256) i none)
  have hcheckFile : SessionExec s
      (.index .filename (.check (hashKey entry.filename) i (some entry.sha256))) none s :=
    hfile ▸ SessionExec.index (s := s) .filename
      (.check (hashKey entry.filename) i (some entry.sha256))
  rw [validateEntry, hparse]
  refine .op hcheckSha (.op hcheckFile ?_)
  exact .op (.index .sha256 _) (.op (.index .filename _) (.refl _ _))

end

/-! ### Two spellings -/

section

/-- A digest in lower case and in upper case. -/
def lowerDigest : Str := List.replicate 64 'a'

def upperDigest : Str := List.replicate 64 'A'

/-- The JSON text of an entry. -/
def entryText (entry : CondaEntry) : Str :=
  "\x7b\"filename\":\"".toList ++ entry.filename ++ "\",\"sha256\":\"".toList ++ entry.sha256 ++
    "\"\x7d".toList

def lowerEntry : CondaEntry := ⟨lowerDigest, "a.conda".toList⟩

def upperEntry : CondaEntry := ⟨upperDigest, "b.conda".toList⟩

/-- A package with a digest of its own. -/
def otherEntry : CondaEntry := ⟨List.replicate 64 'b', "b.conda".toList⟩

/-- The entry with a text. -/
def entryOf (data : Bytes) : Option CondaEntry :=
  [lowerEntry, upperEntry, otherEntry].find? fun entry => data = Text.utf8 (entryText entry)

local instance digestsJson : EntryJson :=
  ⟨fun data => (entryOf data).elim (.error "expected value at line 1 column 1") .ok⟩

local instance digestsHasher : Hasher := ⟨id⟩

attribute [local instance] Text.Hex.plainErrors

/-- The memory after the first entry. -/
def lowerMemory : CondaMonitor where
  sha256Index := CondaMonitor.new.sha256Index.stage (hashKey lowerDigest) 0 none
  filenameIndex :=
    CondaMonitor.new.filenameIndex.stage (hashKey lowerEntry.filename) 0 (some lowerDigest)

def lowerStep : MonitorStep := ⟨.new, .validate 0 (Text.utf8 (entryText lowerEntry)) .valid⟩

/-- A second entry, which is valid too. -/
def secondStep (entry : CondaEntry) : MonitorStep :=
  ⟨lowerMemory, .validate 1 (Text.utf8 (entryText entry)) .valid⟩

theorem parseEntry_text {entry : CondaEntry}
    (h : entryOf (Text.utf8 (entryText entry)) = some entry) :
    parseEntry (Text.utf8 (entryText entry)) = .ok entry := by
  simp [parseEntry, EntryJson.fromSlice, Except.mapError, h]

theorem parseEntry_lower : parseEntry (Text.utf8 (entryText lowerEntry)) = .ok lowerEntry :=
  parseEntry_text (by decide +kernel)

theorem monitorRun_lower :
    MonitorRun "log".toList [lowerStep] (⟨.empty, lowerMemory⟩ : Session Bytes32) := by
  have hstart : MonitorRun "log".toList [] (⟨.empty, .new⟩ : Session Bytes32) :=
    .start (by simp [MonitorDb.empty])
  exact hstart.validate (by simp) (performs_valid parseEntry_lower rfl rfl)

theorem monitorRun_second {entry : CondaEntry}
    (hparse : parseEntry (Text.utf8 (entryText entry)) = .ok entry)
    (hsha : lowerMemory.sha256Index.check (hashKey entry.sha256) 1 none = none)
    (hfile : lowerMemory.filenameIndex.check (hashKey entry.filename) 1 (some entry.sha256) =
      none) :
    ∃ s : Session Bytes32, MonitorRun "log".toList [lowerStep, secondStep entry] s := by
  refine ⟨_, monitorRun_lower.validate ?_ (performs_valid hparse hsha hfile)⟩
  intro step hstep i d r hevent
  obtain rfl := List.mem_singleton.mp hstep
  cases hevent
  decide

theorem keeping_second {entry : CondaEntry}
    (hparse : parseEntry (Text.utf8 (entryText entry)) = .ok entry) :
    (keeping [lowerStep, secondStep entry]).kept = [⟨0, lowerEntry⟩, ⟨1, entry⟩] := by
  simp only [keeping, List.foldl_cons, List.foldl_nil, lowerStep, secondStep, Keeping.next,
    Keeping.kept, validated_valid 0 parseEntry_lower, validated_valid 1 hparse]
  rfl

/-- Two packages with different digests are kept. -/
theorem digestsUnique_iff_other :
    (keeping [lowerStep, secondStep otherEntry]).kept = [⟨0, lowerEntry⟩, ⟨1, otherEntry⟩] ∧
    DigestsUnique [lowerStep, secondStep otherEntry] := by
  have hkey : Function.Injective hashKey := Text.Hex.encode_injective.comp Text.utf8_injective
  have hparse : parseEntry (Text.utf8 (entryText otherEntry)) = .ok otherEntry :=
    parseEntry_text (by decide +kernel)
  obtain ⟨s, hrun⟩ := monitorRun_second hparse (by decide +kernel) (by decide +kernel)
  refine ⟨keeping_second hparse, ?_⟩
  refine (digestsUnique_iff hkey hrun).mpr (fun pre step hpre => ?_) _ List.prefix_rfl
  obtain ⟨rest, hrest⟩ := hpre
  rcases pre with _ | ⟨first, _ | ⟨second, pre⟩⟩
  · -- nothing is kept before the first entry
    obtain ⟨rfl, -⟩ := List.cons.inj hrest
    rintro ⟨_, _, _, entry, ⟨⟩, -, -, hmatch⟩
    change ∃ v ∈ ([] : List Validated), _ at hmatch
    simp at hmatch
  · obtain ⟨rfl, hlast⟩ := List.cons.inj hrest
    obtain ⟨rfl, -⟩ := List.cons.inj hlast
    rintro ⟨_, _, _, entry, ⟨⟩, hentry, -, hmatch⟩
    obtain rfl := Except.ok.inj (hparse.symm.trans hentry)
    change ∃ v ∈ (keeping [lowerStep]).kept, Respells v.entry.sha256 otherEntry.sha256 at hmatch
    have hkept : (keeping [lowerStep]).kept = [⟨0, lowerEntry⟩] := by
      simp only [keeping, List.foldl_cons, List.foldl_nil, lowerStep, Keeping.next, Keeping.kept,
        validated_valid 0 parseEntry_lower]
      rfl
    rw [hkept] at hmatch
    obtain ⟨v, hv, -, d, hd, hd'⟩ := hmatch
    obtain rfl := List.mem_singleton.mp hv
    have hne : digest lowerDigest ≠ digest otherEntry.sha256 := by decide +kernel
    exact hne (hd.trans hd'.symm)
  · simp at hrest

/-- A package is accepted once under each spelling. -/
theorem digestsUnique_respelled : digest lowerDigest = digest upperDigest ∧
    (digest lowerDigest).isSome ∧
    (∃ s : Session Bytes32, MonitorRun "log".toList [lowerStep, secondStep upperEntry] s) ∧
    ¬ DigestsUnique [lowerStep, secondStep upperEntry] := by
  have hdigest : digest lowerDigest = digest upperDigest ∧ (digest lowerDigest).isSome := by
    decide +kernel
  have hparse : parseEntry (Text.utf8 (entryText upperEntry)) = .ok upperEntry :=
    parseEntry_text (by decide +kernel)
  have hkept := keeping_second hparse
  refine ⟨hdigest.1, hdigest.2,
    monitorRun_second hparse (by decide +kernel) (by decide +kernel), fun h => ?_⟩
  obtain ⟨d, hd⟩ := Option.isSome_iff_exists.mp hdigest.2
  exact h.kept ⟨0, lowerEntry⟩ (by simp [hkept]) ⟨1, upperEntry⟩ (by simp [hkept]) (by decide)
    ⟨d, hd, hdigest.1.symm.trans hd⟩

end

end Siglog.Monitor
