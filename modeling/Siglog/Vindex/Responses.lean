import Siglog.Vindex.Reads

/-! The responses to lookups. A handler reads twice, and its response describes one state
if the root hash is the same at both reads. -/

namespace Siglog.Vindex

open Concurrent (Prog)

section

variable [Sha256]

/-- A response that is read from one state. When the key is found, the proof folds from
the leaf of the key and its indices to the root hash. -/
structure Consistent (key : IndexKey) (response : VindexLookupResponse) : Prop where
  state : ∃ (s : VerifiableIndex) (result : LookupResult), Sound s.index s.prefixTree ∧
    s.lookup key = .ok result ∧ response = .of result s.rootHash
  folds : response.found = true → ∃ nodes, response.proof = nodes.map VindexProofNode.ofNode ∧
    response.rootHash =
      Text.Hex.encode (foldProof (leafHash key (computeValueHash response.indices)) nodes).val

def IsRecord : Option Section → Bool
  | some (.record _ _) => true
  | _ => false

/-- What is left of a request, and what it has read. -/
inductive Stage (s : VerifiableIndex) (key : Option IndexKey) :
    IndexProg VindexLookupResponse → Prop
  | failed (f : Fault Error) : Stage s key (.fail f)
  | asked (k : IndexKey) (hkey : key = some k) : Stage s key (respond k)
  | looked (k : IndexKey) (hkey : key = some k) (s₁ : VerifiableIndex) (result : LookupResult)
      (hs : Sound s₁.index s₁.prefixTree) (hl : s₁.lookup k = .ok result)
      (hroot : s₁.rootHash = s.rootHash) :
      Stage s key (.op .rootHash fun rootHash => .pure (.of result rootHash))
  | answered (k : IndexKey) (hkey : key = some k) (response : VindexLookupResponse)
      (h : Consistent k response) :
      Stage s key (.pure response)

theorem Stage.of_rootHash {s s' : VerifiableIndex} {key : Option IndexKey}
    {p : IndexProg VindexLookupResponse}
    (h : Stage s key p) (hroot : s'.rootHash = s.rootHash ∨ p.next ≠ some .rootHash) :
    Stage s' key p := by
  cases h with
  | failed f => exact .failed f
  | asked k hkey => exact .asked k hkey
  | looked k hkey s₁ result hs hl hsame =>
    have hkept := hroot.resolve_right fun hne => hne rfl
    exact .looked k hkey s₁ result hs hl (hsame.trans hkept.symm)
  | answered k hkey response h => exact .answered k hkey response h

theorem consistent_of {s : VerifiableIndex} (hs : Sound s.index s.prefixTree) {k : IndexKey}
    {result : LookupResult}
    (hl : s.lookup k = .ok result) : Consistent k (.of result s.rootHash) := by
  have htells := hs.tells hl
  refine ⟨⟨s, result, hs, hl, rfl⟩, fun hfound => ⟨result.proof, rfl, ?_⟩⟩
  change Text.Hex.encode s.rootHash.val =
    Text.Hex.encode (foldProof (leafHash k (computeValueHash result.indices)) result.proof).val
  rw [htells.folds hfound, htells.rootHash]

/-- The next section of a request. -/
theorem Stage.serve {s : VerifiableIndex} (hs : Sound s.index s.prefixTree) {key : Option IndexKey}
    {o : Section} {k : o.Answer → IndexProg VindexLookupResponse} (h : Stage s key (.op o k))
    (wal : Except Error Unit) :
    Stage (s.perform wal o).2 key (k (s.perform wal o).1) := by
  generalize hp : Prog.op o k = p at h
  cases h with
  | failed f => cases hp
  | asked k' hkey =>
    cases hp
    change Stage s key (Prog.bind (Prog.ofExcept (s.lookup k')) _)
    cases hl : s.lookup k' with
    | ok result => exact .looked k' hkey s result hs hl rfl
    | error f => exact .failed f
  | looked k' hkey s₁ result hs₁ hl hsame =>
    cases hp
    change Stage s key (.pure (.of result s.rootHash))
    rw [← hsame]
    exact .answered k' hkey _ (consistent_of hs₁ hl)
  | answered k' hkey response h => cases hp

theorem Stage.not_record {s : VerifiableIndex} {key : Option IndexKey} {o : Section}
    {k : o.Answer → IndexProg VindexLookupResponse} (h : Stage s key (.op o k)) :
    IsRecord (some o) = false := by
  generalize hp : Prog.op o k = p at h
  cases h with
  | failed f => cases hp
  | asked k' hkey => cases hp; rfl
  | looked k' hkey s₁ result hs₁ hl hsame => cases hp; rfl
  | answered k' hkey response h => cases hp

theorem perform_rootHash {wal : Except Error Unit} {s : VerifiableIndex} {o : Section}
    (h : IsRecord (some o) = false) :
    (s.perform wal o).2.rootHash = s.rootHash := by
  cases o with
  | record idx keys => cases h
  | growTreeSize idx =>
    rw [VerifiableIndex.perform]
    split_ifs
    · rfl
    · cases checkedAdd idx 1 with
      | ok n => rfl
      | error f => rfl
  | _ => rfl

theorem perform_sound {s : VerifiableIndex} (h : Sound s.index s.prefixTree)
    (wal : Except Error Unit) (o : Section) :
    Sound (s.perform wal o).2.index (s.perform wal o).2.prefixTree := by
  cases o with
  | record idx keys =>
    obtain ⟨index, tree, hrec, hsound, -⟩ := record_sound h idx keys
    rw [VerifiableIndex.perform, hrec]
    exact hsound
  | growTreeSize idx =>
    rw [VerifiableIndex.perform]
    split_ifs
    · exact h
    · cases checkedAdd idx 1 with
      | ok n => exact h
      | error f => exact h
  | _ => exact h

section

variable [Text.Hex.HexErrors] {c : Config} {w : World}

/-- Every request is at a stage of the present state. -/
structure Staged (w : World) : Prop where
  sound : Sound w.index.index w.index.prefixTree
  stages : ∀ r ∈ w.requests, Stage w.index r.1.indexKey r.2

/-- No entry is recorded while a request is between its two reads. -/
def CalmMove (w : World) : Move → Prop
  | .index _ => IsRecord w.indexing.next = true → ∀ r ∈ w.requests, r.2.next ≠ some .rootHash
  | _ => True

def Calm (c : Config) : World → List Move → Prop
  | _, [] => True
  | w, m :: moves => CalmMove w m ∧ Calm c (w.move c m) moves

instance (w : World) : (m : Move) → Decidable (CalmMove w m)
  | .index _ => inferInstanceAs (Decidable (_ → _))
  | .call _ _ => inferInstanceAs (Decidable True)
  | .ask _ => inferInstanceAs (Decidable True)
  | .serve _ => inferInstanceAs (Decidable True)

instance decidableCalm : (w : World) → (moves : List Move) → Decidable (Calm c w moves)
  | _, [] => inferInstanceAs (Decidable True)
  | w, m :: moves =>
    have := decidableCalm (w.move c m) moves
    inferInstanceAs (Decidable (_ ∧ _))

/-- The requests that are answered. -/
def World.responses (w : World) : List (Request × VindexLookupResponse) :=
  w.requests.filterMap fun
    | (r, .pure response) => some (r, response)
    | _ => none

omit [Sha256] [Text.Hex.HexErrors] in
theorem World.mem_requests {r : Request} {response : VindexLookupResponse}
    (h : (r, response) ∈ w.responses) :
    (r, .pure response) ∈ w.requests := by
  obtain ⟨⟨r', p⟩, hmem, hp⟩ := List.mem_filterMap.mp h
  cases p with
  | pure response' =>
    cases hp
    exact hmem
  | fail f => cases hp
  | op o k => cases hp

/-- A calm move leaves the root hash to the requests between their reads. -/
theorem Staged.rootHash (h : Staged w) {m : Move} (hm : CalmMove w m) :
    (w.move c m).index.rootHash = w.index.rootHash ∨
    ∀ r ∈ w.requests, r.2.next ≠ some .rootHash := by
  cases m with
  | call idx data =>
    rw [World.move]
    split
    · exact .inl rfl
    · exact .inl rfl
  | index wal =>
    rw [World.move]
    split
    · rename_i o k hp
      rw [CalmMove, hp] at hm
      cases hrecord : IsRecord (some o) with
      | true => exact .inr (hm hrecord)
      | false => exact .inl (perform_rootHash hrecord)
    · exact .inl rfl
  | ask r => exact .inl rfl
  | serve n =>
    rw [World.move]
    split
    · rename_i r o k hn
      exact .inl (perform_rootHash (h.stages _ (List.mem_of_getElem? hn)).not_record)
    · exact .inl rfl

theorem Staged.move (h : Staged w) {m : Move} (hm : CalmMove w m) : Staged (w.move c m) := by
  have hkept : ∀ r ∈ w.requests, Stage (w.move c m).index r.1.indexKey r.2 := fun r hr =>
    (h.stages r hr).of_rootHash ((h.rootHash hm).imp_right fun hcalm => hcalm r hr)
  obtain ⟨hsound, hstages⟩ := h
  cases m with
  | call idx data =>
    rw [World.move] at hkept ⊢
    split
    · exact ⟨hsound, hstages⟩
    · exact ⟨hsound, hstages⟩
  | index wal =>
    rw [World.move] at hkept ⊢
    split
    · rename_i o k hp
      rw [hp] at hkept
      exact ⟨perform_sound hsound wal o, hkept⟩
    · exact ⟨hsound, hstages⟩
  | ask r =>
    refine ⟨hsound, fun r' hr' => ?_⟩
    rcases List.mem_append.mp hr' with hr' | hr'
    · exact hstages r' hr'
    · rw [List.mem_singleton.mp hr']
      rcases handler_cases r with ⟨f, hf⟩ | ⟨key, hkey, hhandler⟩
      · rw [hf]
        exact .failed f
      · rw [hhandler]
        exact .asked key hkey
  | serve n =>
    rw [World.move] at hkept ⊢
    split
    · rename_i r o k hn
      rw [hn] at hkept
      refine ⟨perform_sound hsound (.ok ()) o, fun r' hr' => ?_⟩
      rcases List.mem_or_eq_of_mem_set hr' with hr' | rfl
      · exact hkept r' hr'
      · exact (hstages _ (List.mem_of_getElem? hn)).serve hsound (.ok ())
    · exact ⟨hsound, hstages⟩

theorem Staged.run {moves : List Move} (h : Staged w) (hm : Calm c w moves) :
    Staged (w.run c moves) := by
  induction moves generalizing w with
  | nil => exact h
  | cons m moves ih => exact ih (h.move hm.1) hm.2

/-- In a run that records no entry while a request is between its reads, every response is
consistent. -/
theorem response_consistent {s₀ : VerifiableIndex} (h₀ : Sound s₀.index s₀.prefixTree) (c : Config)
    (moves : List Move)
    (hm : Calm c (World.init s₀) moves) (r : Request) (response : VindexLookupResponse)
    (hr : (r, response) ∈ ((World.init s₀).run c moves).responses) (key : IndexKey)
    (hkey : r.indexKey = some key) :
    Consistent key response := by
  have hstaged : Staged ((World.init s₀).run c moves) := Staged.run ⟨h₀, by simp [World.init]⟩ hm
  have hstage := hstaged.stages _ (World.mem_requests hr)
  generalize hp : (Prog.pure response : IndexProg VindexLookupResponse) = p at hstage
  cases hstage with
  | failed f => cases hp
  | asked k hk => cases hp
  | looked k hk s₁ result hs hl hroot => cases hp
  | answered k hk response' h =>
    cases hp
    obtain rfl := Option.some.inj (hkey.symm.trans hk)
    exact h

end

end

/-! ### One key, two entries -/

section

open Text (Str)

attribute [local instance] endsSha256 Text.Hex.plainErrors

def keyA : Str := "a".toList

/-- The index of entries that all have one key. -/
def mapA : Config := ⟨fun _ => [hashKey keyA], false⟩

/-- One entry is indexed, and a request reads the index. The second entry is recorded
before it reads the root hash. -/
def tornReads : List Move :=
  [.call 0 [], .index (.ok ()), .index (.ok ()), .index (.ok ()), .index (.ok ()), .index (.ok ()),
    .ask (.key keyA), .serve 0, .call 1 [], .index (.ok ()), .index (.ok ()), .index (.ok ()),
    .serve 0]

theorem response_torn : ∃ response, (Request.key keyA, response) ∈
    ((World.init (.new 1 2)).run mapA tornReads).responses ∧
    ¬ Consistent (hashKey keyA) response := by
  have hresponses : ((World.init (.new 1 2)).run mapA tornReads).responses =
      [(.key keyA, ⟨[0], 1, true, [],
        Text.Hex.encode (leafHash (hashKey keyA) (computeValueHash [0, 1])).val⟩)] := by
    decide +kernel
  rw [hresponses]
  refine ⟨_, List.mem_singleton_self _, fun h => ?_⟩
  obtain ⟨nodes, hnodes, hroot⟩ := h.folds rfl
  obtain rfl := List.map_eq_nil_iff.mp hnodes.symm
  exact absurd hroot (by decide +kernel)

/-- The second entry waits for the response. -/
def calmReads : List Move :=
  [.call 0 [], .index (.ok ()), .index (.ok ()), .index (.ok ()), .index (.ok ()), .index (.ok ()),
    .ask (.key keyA), .serve 0, .call 1 [], .index (.ok ()), .index (.ok ()), .serve 0,
    .index (.ok ())]

theorem response_consistent_calm : ∃ response, response.found = true ∧
    (Request.key keyA, response) ∈ ((World.init (.new 1 2)).run mapA calmReads).responses ∧
    Consistent (hashKey keyA) response := by
  have hresponses : ((World.init (.new 1 2)).run mapA calmReads).responses =
      [(.key keyA, ⟨[0], 1, true, [],
        Text.Hex.encode (leafHash (hashKey keyA) (computeValueHash [0])).val⟩)] := by
    decide +kernel
  have hmem : (Request.key keyA, _) ∈ ((World.init (.new 1 2)).run mapA calmReads).responses :=
    hresponses ▸ List.mem_singleton_self _
  exact ⟨_, rfl, hmem,
    response_consistent (sound_new 1 2) mapA calmReads (by decide +kernel) _ _ hmem _ rfl⟩

end

end Siglog.Vindex
