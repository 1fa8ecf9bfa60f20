import Siglog.Vindex.VerifiableIndex
import Siglog.Vindex.Commitment

/-! Indexing and lookups in any order, one section at a time. The mutex admits one call
to index an entry at a time; requests run beside it. A run is a list of moves. -/

namespace Siglog.Vindex

open Concurrent (Prog)
open Text (Str utf8)
open VerifiableIndex (record)

section

variable [Sha256]

/-! ### The index and the tree agree -/

/-- The tree holds the value hash of each key's indices, and no key has none. -/
structure Sound (index : IndexMap) (tree : PrefixTree) : Prop where
  holds : tree.Holds fun key => (index.lookup key).map computeValueHash
  ne_nil : ∀ key, index.lookup key ≠ some []

theorem sound_new (maxKeys maxIndicesPerKey : ℕ) :
    Sound (VerifiableIndex.new maxKeys maxIndicesPerKey).index
    (VerifiableIndex.new maxKeys maxIndicesPerKey).prefixTree := by
  refine ⟨?_, ?_⟩
  · have hempty :
        (fun key : IndexKey => ((∅ : IndexMap).lookup key).map computeValueHash) = fun _ =>
          none := by
      funext key
      rw [AList.lookup_empty]
      rfl
    exact hempty ▸ PrefixTree.holds_new
  · intro key
    rw [VerifiableIndex.new, AList.lookup_empty]
    simp

/-- Recording adds `idx` under the keys. -/
theorem record_indices {idx : ℕ} {keys : List IndexKey} {index index' : IndexMap}
    {tree tree' : PrefixTree}
    (h : record idx keys index tree = .ok (index', tree')) (key : IndexKey) :
    indicesOf index' key = if key ∈ keys ∧
    idx ∉ indicesOf index key then indicesOf index key ++ [idx]
      else indicesOf index key := by
  induction keys generalizing index tree with
  | nil =>
    cases h
    simp
  | cons k keys ih =>
    rw [record] at h
    split_ifs at h with hin
    · rw [ih h]
      by_cases hk : key = k
      · subst hk
        rw [if_neg (by tauto), if_neg (by tauto)]
      · simp only [List.mem_cons, hk, false_or]
    · simp only [bind, Except.bind] at h
      cases hins : tree.insert k (computeValueHash (indicesOf index k ++ [idx])) with
      | error f => simp [hins] at h
      | ok tree₁ =>
        rw [hins] at h
        rw [ih h]
        by_cases hk : key = k
        · subst hk
          rw [indicesOf_insert_self, if_neg (by simp), if_pos ⟨List.mem_cons_self, hin⟩]
        · simp only [indicesOf_insert_ne _ _ hk, List.mem_cons, hk, false_or]

/-- Recording does not panic, keeps index and tree in agreement, and adds `idx` under the keys. -/
theorem record_sound {index : IndexMap} {tree : PrefixTree} (h : Sound index tree) (idx : ℕ)
    (keys : List IndexKey) :
    ∃ index' tree', record idx keys index tree = .ok (index', tree') ∧ Sound index' tree' ∧ ∀ key,
      indicesOf index' key = if key ∈ keys ∧
      idx ∉ indicesOf index key then indicesOf index key ++ [idx]
        else indicesOf index key := by
  have hrun : ∃ index' tree', record idx keys index tree = .ok (index', tree') ∧
      Sound index' tree' := by
    induction keys generalizing index tree with
    | nil => exact ⟨index, tree, rfl, h⟩
    | cons k keys ih =>
      by_cases hin : idx ∈ indicesOf index k
      · obtain ⟨index', tree', hrec, hsound⟩ := ih h
        exact ⟨index', tree', by rw [record, if_pos hin]; exact hrec, hsound⟩
      · obtain ⟨tree₁, hins, h₁⟩ := h.holds.insert k (computeValueHash (indicesOf index k ++ [idx]))
        have hsound₁ : Sound (index.insert k (indicesOf index k ++ [idx])) tree₁ := by
          refine ⟨?_, ?_⟩
          · have hmap : (fun key =>
                ((index.insert k (indicesOf index k ++ [idx])).lookup key).map computeValueHash) =
                Function.update (fun key => (index.lookup key).map computeValueHash) k
                  (some (computeValueHash (indicesOf index k ++ [idx]))) := by
              funext key
              by_cases hk : key = k
              · subst hk
                rw [AList.lookup_insert, Function.update_self]
                rfl
              · rw [AList.lookup_insert_ne hk, Function.update_of_ne hk]
            exact hmap ▸ h₁
          · intro key
            by_cases hk : key = k
            · subst hk
              rw [AList.lookup_insert]
              simp
            · rw [AList.lookup_insert_ne hk]
              exact h.ne_nil key
        obtain ⟨index', tree', hrec, hsound⟩ := ih hsound₁
        refine ⟨index', tree', ?_, hsound⟩
        rw [record, if_neg hin]
        simp only [bind, Except.bind, hins, hrec]
  obtain ⟨index', tree', hrec, hsound⟩ := hrun
  exact ⟨index', tree', hrec, hsound, record_indices hrec⟩

/-- A request for a lookup. -/
inductive Request where
  | hash (hashStr : Str)
  | key (key : Str)
  deriving DecidableEq

/-- What happens next: a call to index an entry, the next section of that call and how its
WAL write ends, a request, or the next section of a request. -/
inductive Move where
  | call (idx : ℕ) (data : Bytes)
  | index (wal : Except Error Unit)
  | ask (r : Request)
  | serve (n : ℕ)

section

variable [Text.Hex.HexErrors]

/-- The key a request looks up. -/
def Request.indexKey : Request → Option IndexKey
  | .hash hashStr =>
    match Text.Hex.decode hashStr with
    | .error _ => none
    | .ok b => if h : b.length = 32 then some ⟨b, h⟩ else none
  | .key s => some (hashKey s)

def Request.handler : Request → IndexProg VindexLookupResponse
  | .hash hashStr => vindexLookup true hashStr
  | .key s => vindexLookupKey true s

/-- The index, the call that holds the mutex, and the requests with what is left of them. -/
structure World where
  index : VerifiableIndex
  indexing : IndexProg Unit
  requests : List (Request × IndexProg VindexLookupResponse)

/-- The map function and whether there is a WAL. -/
structure Config where
  mapFn : Bytes → List IndexKey
  hasWal : Bool

namespace World

def init (s : VerifiableIndex) : World := ⟨s, .pure (), []⟩

variable (c : Config)

/-- One move. A call waits for the mutex as long as another one holds it. -/
def move (w : World) : Move → World
  | .call idx data =>
    match w.indexing with
    | .op _ _ => w
    | _ => { w with indexing := indexEntry c.mapFn c.hasWal idx data }
  | .index wal =>
    match w.indexing with
    | .op o k =>
      { w with index := (w.index.perform wal o).2, indexing := k (w.index.perform wal o).1 }
    | _ => w
  | .ask r => { w with requests := w.requests ++ [(r, r.handler)] }
  | .serve n =>
    match w.requests[n]? with
    | some (r, .op o k) =>
      { w with
        index := (w.index.perform (.ok ()) o).2
        requests := w.requests.set n (r, k (w.index.perform (.ok ()) o).1) }
    | _ => w

def run (w : World) (moves : List Move) : World := moves.foldl (move c) w

@[simp] theorem run_nil (w : World) : run c w [] = w := rfl

@[simp] theorem run_cons (w : World) (m : Move) (moves : List Move) :
    run c w (m :: moves) = run c (w.move c m) moves := rfl

end World

end

/-! ### Requests only read -/

def Reads (o : Section) : Prop := o = .rootHash ∨ ∃ key, o = .lookup key

omit [Sha256] in
theorem respond_reads (key : IndexKey) : (respond key).Calls Reads := by
  refine ⟨.inr ⟨key, rfl⟩, ?_⟩
  intro result
  cases result with
  | ok result => exact ⟨.inl rfl, fun _ => trivial⟩
  | error f => trivial

section

variable [Text.Hex.HexErrors]

/-- A handler fails, or answers for the key of its request. -/
theorem handler_cases (r : Request) : (∃ f, r.handler = .fail f) ∨ ∃ key, r.indexKey = some key ∧
    r.handler = respond key := by
  cases r with
  | hash hashStr =>
    rw [Request.handler, vindexLookup, if_neg (by decide), Request.indexKey]
    cases Text.Hex.decode hashStr with
    | error e => exact .inl ⟨_, rfl⟩
    | ok b =>
      by_cases h : b.length = 32
      · simp only [dif_pos h]
        exact .inr ⟨_, rfl, rfl⟩
      · simp only [dif_neg h]
        exact .inl ⟨_, rfl⟩
  | key s => exact .inr ⟨_, rfl, rfl⟩

theorem handler_reads (r : Request) : r.handler.Calls Reads := by
  rcases handler_cases r with ⟨f, hf⟩ | ⟨key, -, hkey⟩
  · rw [hf]
    trivial
  · rw [hkey]
    exact respond_reads key

end

theorem perform_reads {wal : Except Error Unit} {s : VerifiableIndex} {o : Section} (h : Reads o) :
    (s.perform wal o).2 = s := by
  rcases h with rfl | ⟨key, rfl⟩
  · rfl
  · rfl

/-! ### What a call to index an entry keeps -/

/-- The indices below `n` of the entries with a key. -/
def spec (mapFn : Bytes → List IndexKey) (entries : ℕ → Bytes) (n : ℕ) (key : IndexKey) : List ℕ :=
  (List.range n).filter fun i => key ∈ mapFn (entries i)

/-- The index and the tree are those of the first `n` entries. -/
structure Mirrors (mapFn : Bytes → List IndexKey) (entries : ℕ → Bytes) (n : ℕ)
    (s : VerifiableIndex) : Prop where
  sound : Sound s.index s.prefixTree
  indices : ∀ key, indicesOf s.index key = spec mapFn entries n key

/-- Between the sections of a call the index is that of the tree size. Before the tree size
grows, the index is one entry ahead. -/
def Indexing (mapFn : Bytes → List IndexKey) (entries : ℕ → Bytes) :
    Option Section → VerifiableIndex → Prop
  | some (.growTreeSize i), s => i = s.treeSize ∧ Mirrors mapFn entries (i + 1) s
  | _, s => s.poisoned = true ∨ Mirrors mapFn entries s.treeSize s

/-- One section alone. -/
def Performs (s : VerifiableIndex) (o : Section) (r : o.Answer) (s' : VerifiableIndex) : Prop :=
  ∃ wal, s.perform wal o = (r, s')

/-- The call keeps the index and the tree size together, up to its end. -/
abbrev Tracks (mapFn : Bytes → List IndexKey) (entries : ℕ → Bytes) (p : IndexProg Unit)
    (s : VerifiableIndex) : Prop :=
  p.Along Performs (fun o => Indexing mapFn entries (some o)) (fun _ => Indexing mapFn entries none)
    s

variable {mapFn : Bytes → List IndexKey} {entries : ℕ → Bytes}

omit [Sha256] in
theorem spec_succ (n : ℕ) (key : IndexKey) : spec mapFn entries (n + 1) key =
    if key ∈ mapFn (entries n) then spec mapFn entries n key ++ [n]
    else spec mapFn entries n key := by
  rw [spec, List.range_succ, List.filter_append, List.filter_singleton, ← spec]
  by_cases h : key ∈ mapFn (entries n)
  · simp [h]
  · simp [h]

omit [Sha256] in
theorem not_mem_spec (n : ℕ) (key : IndexKey) : n ∉ spec mapFn entries n key := by simp [spec]

omit [Sha256] in
theorem mem_eraseReps {keys : List IndexKey} {key : IndexKey} :
    key ∈ keys.eraseReps ↔ key ∈ keys := by
  have hloop : ∀ (rest acc : List IndexKey) (a : IndexKey),
      key ∈ List.eraseRepsBy.loop (· == ·) a rest acc ↔ key = a ∨ key ∈ rest ∨ key ∈ acc := by
    intro rest
    induction rest with
    | nil =>
      intro acc a
      simp [List.eraseRepsBy.loop, or_comm]
    | cons b rest ih =>
      intro acc a
      rw [List.eraseRepsBy.loop]
      cases hab : a == b with
      | true =>
        obtain rfl := eq_of_beq hab
        simp only [ih, List.mem_cons]
        tauto
      | false =>
        simp only [ih, List.mem_cons]
        tauto
  cases keys with
  | nil => rfl
  | cons a rest => rw [List.eraseReps, List.eraseRepsBy, hloop]; simp

omit [Sha256] in
theorem mem_sortedKeys {keys : List IndexKey} {key : IndexKey} :
    key ∈ sortedKeys keys ↔ key ∈ keys := by
  rw [sortedKeys, mem_eraseReps, List.mem_insertionSort]

/-- The index is that of the tree size, unless the lock is poisoned. -/
def Settled (mapFn : Bytes → List IndexKey) (entries : ℕ → Bytes) (s : VerifiableIndex) : Prop :=
  s.poisoned = true ∨ Mirrors mapFn entries s.treeSize s

theorem Settled.indexing {s : VerifiableIndex} (h : Settled mapFn entries s) {next : Option Section}
    (hnext : ∀ i, next ≠ some (.growTreeSize i)) : Indexing mapFn entries next s := by
  rcases next with _ | o
  · exact h
  · cases o with
    | growTreeSize i => exact absurd rfl (hnext i)
    | _ => exact h

/-- The WAL does not concern memory. -/
theorem append_along {s : VerifiableIndex} (h : Settled mapFn entries s) (hasWal : Bool) (idx : ℕ)
    (keys : List IndexKey) {p : IndexProg Unit} (hp : Tracks mapFn entries p s) :
    Tracks mapFn entries
      (if hasWal then
        (Prog.call (Section.append idx keys)).bind fun r => (ofResult r).bind fun _ => p
      else p) s := by
  cases hasWal with
  | false => exact hp
  | true =>
    refine ⟨h.indexing (by simp), ?_⟩
    rintro r s' ⟨wal, hperform⟩
    obtain ⟨-, rfl⟩ := Prod.mk.inj hperform
    cases r with
    | ok u => exact hp
    | error e => exact h

theorem grow_along {s : VerifiableIndex} {i : ℕ} (hi : i = s.treeSize)
    (h : Mirrors mapFn entries (i + 1) s) :
    Tracks mapFn entries
      ((Prog.call (Section.growTreeSize i)).bind fun r => (Prog.ofExcept r).bind fun _ =>
      Prog.call Section.countIndexed) s := by
  refine ⟨⟨hi, h⟩, ?_⟩
  rintro r s' ⟨wal, hperform⟩
  rw [VerifiableIndex.perform] at hperform
  by_cases hp : s.poisoned = true
  · rw [if_pos hp] at hperform
    obtain ⟨rfl, rfl⟩ := Prod.mk.inj hperform
    exact .inl hp
  rw [if_neg hp, checkedAdd] at hperform
  split_ifs at hperform with hlt
  · obtain ⟨rfl, rfl⟩ := Prod.mk.inj hperform
    have hsize : max s.treeSize (i + 1) = i + 1 := by omega
    have hgrown : Indexing mapFn entries (some .countIndexed)
        { s with treeSize := max s.treeSize (i + 1) } := by
      rw [hsize]
      exact .inr ⟨h.sound, h.indices⟩
    refine ⟨hgrown, ?_⟩
    rintro _ _ ⟨_, hcount⟩
    obtain ⟨-, rfl⟩ := Prod.mk.inj hcount
    rw [hsize]
    exact .inr ⟨h.sound, h.indices⟩
  · obtain ⟨rfl, rfl⟩ := Prod.mk.inj hperform
    exact .inl rfl

theorem indexEntry_along {s : VerifiableIndex} (h : Settled mapFn entries s) (hasWal : Bool)
    (idx : ℕ) :
    Tracks mapFn entries (indexEntry mapFn hasWal idx (entries idx)) s := by
  refine ⟨h.indexing (by simp), ?_⟩
  rintro r s' ⟨wal, hperform⟩
  rw [VerifiableIndex.perform, VerifiableIndex.readTreeSize] at hperform
  obtain ⟨rfl, rfl⟩ := Prod.mk.inj hperform
  by_cases hp : s.poisoned = true
  · rw [if_pos hp]
    exact h
  have hmirrors := h.resolve_left hp
  rw [if_neg hp]
  simp only [Prog.bind_eq, Prog.pure_eq, Prog.pure_bind, Prog.ofExcept_ok]
  by_cases hlt : idx < s.treeSize
  · rw [if_pos hlt]
    exact h
  by_cases hne : idx ≠ s.treeSize
  · rw [if_neg hlt, if_pos hne]
    exact h
  rw [if_neg hlt, if_neg hne]
  obtain rfl := not_not.mp hne
  by_cases hmany : maxKeysPerEntry < (sortedKeys (mapFn (entries s.treeSize))).length
  · rw [if_pos hmany]
    exact h
  rw [if_neg hmany]
  by_cases hnone : sortedKeys (mapFn (entries s.treeSize)) = []
  · rw [if_pos hnone]
    apply append_along h
    apply grow_along rfl
    refine ⟨hmirrors.sound, fun key => ?_⟩
    have hkey : key ∉ mapFn (entries s.treeSize) := by
      rw [← mem_sortedKeys, hnone]
      exact List.not_mem_nil
    rw [hmirrors.indices, spec_succ, if_neg hkey]
  · rw [if_neg hnone]
    refine ⟨h.indexing (by simp), ?_⟩
    rintro r s' ⟨wal', hcheck⟩
    obtain ⟨-, rfl⟩ := Prod.mk.inj hcheck
    cases r with
    | error e => exact h
    | ok u =>
      apply append_along h
      refine ⟨h.indexing (by simp), ?_⟩
      rintro r s' ⟨wal'', hrecord⟩
      obtain ⟨index, tree, hrec, hsound, hkeys⟩ :=
        record_sound hmirrors.sound s.treeSize (sortedKeys (mapFn (entries s.treeSize)))
      rw [VerifiableIndex.perform, hrec] at hrecord
      obtain ⟨rfl, rfl⟩ := Prod.mk.inj hrecord
      have hahead :
          Mirrors mapFn entries (s.treeSize + 1) { s with index := index, prefixTree := tree } := by
        refine ⟨hsound, fun key => ?_⟩
        rw [hkeys, hmirrors.indices, spec_succ]
        simp only [mem_sortedKeys, not_mem_spec, not_false_eq_true, and_true]
      exact grow_along rfl hahead

/-! ### Lookups at the tree size -/

/-- The call in progress has its sections ahead of it, and requests only read. -/
structure Good (mapFn : Bytes → List IndexKey) (entries : ℕ → Bytes) (w : World) : Prop where
  indexing : Tracks mapFn entries w.indexing w.index
  requests : ∀ r ∈ w.requests, r.2.Calls Reads

/-- The entries are those of the log. -/
def FromLog (entries : ℕ → Bytes) (m : Move) : Prop :=
  ∀ idx data, m = .call idx data → data = entries idx

section

variable [Text.Hex.HexErrors] {hasWal : Bool} {w : World}

theorem Good.move (h : Good mapFn entries w) {m : Move} (hm : FromLog entries m) :
    Good mapFn entries (w.move ⟨mapFn, hasWal⟩ m) := by
  obtain ⟨hindexing, hrequests⟩ := h
  cases m with
  | call idx data =>
    obtain rfl := hm idx data rfl
    rw [World.move]
    split
    · exact ⟨hindexing, hrequests⟩
    · rename_i hdone
      refine ⟨indexEntry_along ?_ hasWal idx, hrequests⟩
      cases hp : w.indexing with
      | pure u => rw [hp] at hindexing; exact hindexing
      | fail e => rw [hp] at hindexing; exact hindexing
      | op o k => exact absurd hp (hdone o k)
  | index wal =>
    rw [World.move]
    split
    · rename_i o k hp
      rw [hp] at hindexing
      exact ⟨hindexing.2 _ _ ⟨wal, rfl⟩, hrequests⟩
    · exact ⟨hindexing, hrequests⟩
  | ask r =>
    refine ⟨hindexing, fun r' hr' => ?_⟩
    rcases List.mem_append.mp hr' with hr' | hr'
    · exact hrequests r' hr'
    · rw [List.mem_singleton.mp hr']
      exact handler_reads r
  | serve n =>
    rw [World.move]
    split
    · rename_i r o k hn
      have hcalls := hrequests _ (List.mem_of_getElem? hn)
      rw [perform_reads hcalls.1]
      refine ⟨hindexing, fun r' hr' => ?_⟩
      rcases List.mem_or_eq_of_mem_set hr' with hr' | rfl
      · exact hrequests r' hr'
      · exact hcalls.2 _
    · exact ⟨hindexing, hrequests⟩

theorem Good.run {moves : List Move} (h : Good mapFn entries w)
    (hm : ∀ m ∈ moves, FromLog entries m) :
    Good mapFn entries (w.run ⟨mapFn, hasWal⟩ moves) := by
  induction moves generalizing w with
  | nil => exact h
  | cons m moves ih =>
    exact ih (h.move (hm m List.mem_cons_self)) fun m' hm' => hm m' (List.mem_cons_of_mem _ hm')

end

/-- The lookup has the indices of the key at the tree size that it tells, and finds the
key exactly if there are any. -/
structure ExactAt (mapFn : Bytes → List IndexKey) (entries : ℕ → Bytes) (key : IndexKey)
    (result : LookupResult) : Prop where
  indices : result.indices = spec mapFn entries result.treeSize key
  found : result.found = true ↔ result.indices ≠ []

/-- An entry with the key is in the index, and the tree size is still to grow. -/
def Publishing (mapFn : Bytes → List IndexKey) (entries : ℕ → Bytes) (key : IndexKey) (w : World) :
    Prop :=
  ∃ idx, w.indexing.next = some (.growTreeSize idx) ∧ key ∈ mapFn (entries idx)

/-- What a lookup tells of the state it reads. -/
structure Tells (s : VerifiableIndex) (key : IndexKey) (result : LookupResult) : Prop where
  indices : result.indices = indicesOf s.index key
  treeSize : result.treeSize = s.treeSize
  rootHash : result.rootHash = s.rootHash
  found : result.found = true ↔ result.indices ≠ []
  folds : result.found = true →
  foldProof (leafHash key (computeValueHash result.indices)) result.proof = result.rootHash

theorem Sound.tells {s : VerifiableIndex} (h : Sound s.index s.prefixTree) {key : IndexKey}
    {result : LookupResult} (hl : s.lookup key = .ok result) : Tells s key result := by
  obtain ⟨p, hp, hfound, hfold⟩ := h.holds.lookup key
  rw [VerifiableIndex.lookup, VerifiableIndex.readTreeSize, hp] at hl
  cases hpoisoned : s.poisoned with
  | true =>
    rw [hpoisoned, if_pos rfl] at hl
    cases hl
  | false =>
    rw [hpoisoned, if_neg (by simp)] at hl
    cases hl
    have hsome :
        (((s.index.lookup key).map computeValueHash).isSome = true) ↔
        indicesOf s.index key ≠ [] := by
      rw [indicesOf]
      cases hkey : s.index.lookup key with
      | none => simp
      | some indices =>
        have hne := h.ne_nil key
        rw [hkey] at hne
        simpa using hne
    refine ⟨rfl, rfl, rfl, hfound.trans hsome, fun hf => hfold _ ?_⟩
    obtain ⟨v, hv⟩ := Option.isSome_iff_exists.mp (hfound.mp hf)
    obtain ⟨indices, hkey, rfl⟩ := Option.map_eq_some_iff.mp hv
    simp [indicesOf, hkey]

theorem lookup_poisoned {s : VerifiableIndex} (h : s.poisoned = true) (key : IndexKey) :
    s.lookup key = .error .panic := by
  rw [VerifiableIndex.lookup, VerifiableIndex.readTreeSize, if_pos h]
  rfl

section

variable [Text.Hex.HexErrors] {s₀ : VerifiableIndex}

/-- A lookup is exact unless it falls between the two sections of a call that publish an
entry with its key. -/
theorem lookup_exact (h₀ : Mirrors mapFn entries s₀.treeSize s₀) (hasWal : Bool) (moves : List Move)
    (hm : ∀ m ∈ moves, FromLog entries m) (key : IndexKey) (result : LookupResult)
    (hl : ((World.init s₀).run ⟨mapFn, hasWal⟩ moves).index.lookup key = .ok result) :
    ExactAt mapFn entries key result ↔
    ¬ Publishing mapFn entries key ((World.init s₀).run ⟨mapFn, hasWal⟩ moves) := by
  have hgood : Good mapFn entries ((World.init s₀).run ⟨mapFn, hasWal⟩ moves) :=
    Good.run ⟨.inr h₀, by simp [World.init]⟩ hm
  generalize (World.init s₀).run ⟨mapFn, hasWal⟩ moves = w at hl hgood ⊢
  have hnow := Prog.along_now hgood.indexing
  by_cases hnext : ∃ idx, w.indexing.next = some (.growTreeSize idx)
  · obtain ⟨idx, hnext⟩ := hnext
    rw [hnext] at hnow
    obtain ⟨rfl, hahead⟩ := hnow
    have htells := hahead.sound.tells hl
    have hpublishing : Publishing mapFn entries key w ↔ key ∈ mapFn (entries w.index.treeSize) := by
      simp [Publishing, hnext]
    rw [hpublishing]
    have hindices := htells.indices.trans ((hahead.indices key).trans (spec_succ _ key))
    constructor
    · intro hexact hkey
      have hsame := hexact.indices
      rw [hindices, if_pos hkey, htells.treeSize] at hsame
      simpa using congrArg List.length hsame
    · intro hkey
      rw [if_neg hkey, ← htells.treeSize] at hindices
      exact ⟨hindices, htells.found⟩
  · have hsettled : Settled mapFn entries w.index := by
      cases hn : w.indexing.next with
      | none => rwa [hn] at hnow
      | some o =>
        rw [hn] at hnow
        cases o with
        | growTreeSize idx => exact absurd ⟨idx, hn⟩ hnext
        | _ => exact hnow
    rcases hsettled with hpoisoned | hmirrors
    · rw [lookup_poisoned hpoisoned] at hl
      cases hl
    · have htells := hmirrors.sound.tells hl
      refine iff_of_true ⟨?_, htells.found⟩ fun ⟨idx, hidx, _⟩ => hnext ⟨idx, hidx⟩
      rw [htells.indices, hmirrors.indices, htells.treeSize]

end

end

/-! ### One key -/

section

attribute [local instance] endsSha256 Text.Hex.plainErrors

def oneKey : Bytes32 := PrefixTree.ones

/-- The sections of one call up to the growth of the tree size. -/
def upToGrowth : List Move := [.call 0 [], .index (.ok ()), .index (.ok ()), .index (.ok ())]

/-- Before the tree size grows, a lookup tells an index that is not below it. -/
theorem lookup_ahead : (∀ m ∈ upToGrowth, FromLog (fun _ => []) m) ∧ ∃ result,
    ((World.init (.new 1 1)).run ⟨fun _ => [oneKey], false⟩ upToGrowth).index.lookup oneKey =
      .ok result ∧
    ¬ ExactAt (fun _ => [oneKey]) (fun _ => []) oneKey result := by
  have hlookup : (((World.init (.new 1 1)).run ⟨fun _ => [oneKey], false⟩ upToGrowth).index.lookup
      oneKey).toOption =
      some ⟨[0], 0, true, [], leafHash oneKey (computeValueHash [0])⟩ := by decide +kernel
  refine ⟨by simp [upToGrowth, FromLog], ?_⟩
  cases hl : ((World.init (.new 1 1)).run ⟨fun _ => [oneKey], false⟩ upToGrowth).index.lookup
    oneKey with
  | error f =>
    rw [hl] at hlookup
    cases hlookup
  | ok result =>
    rw [hl] at hlookup
    obtain rfl := Option.some.inj hlookup
    exact ⟨_, rfl, fun hexact => by cases hexact.indices⟩

/-- The call to its end. -/
def wholeCall : List Move := upToGrowth ++ [.index (.ok ()), .index (.ok ())]

theorem lookup_exact_one : ∃ result : LookupResult, result.treeSize = 1 ∧
    ((World.init (.new 1 1)).run ⟨fun _ => [oneKey], false⟩ wholeCall).index.lookup oneKey =
      .ok result ∧
    ExactAt (fun _ => [oneKey]) (fun _ => []) oneKey result := by
  have hlookup : (((World.init (.new 1 1)).run ⟨fun _ => [oneKey], false⟩ wholeCall).index.lookup
      oneKey).toOption.map
      LookupResult.treeSize = some 1 := by decide +kernel
  have hdone : ((World.init (.new 1 1)).run ⟨fun _ => [oneKey], false⟩ wholeCall).indexing.next =
      none := by decide +kernel
  cases hl : ((World.init (.new 1 1)).run ⟨fun _ => [oneKey], false⟩ wholeCall).index.lookup
    oneKey with
  | error f =>
    rw [hl] at hlookup
    cases hlookup
  | ok result =>
    rw [hl] at hlookup
    refine ⟨result, Option.some.inj hlookup, rfl, ?_⟩
    refine (lookup_exact ⟨sound_new 1 1, fun _ => rfl⟩ false wholeCall
      (by simp [wholeCall, upToGrowth, FromLog]) oneKey
      result hl).mpr ?_
    rintro ⟨idx, hnext, -⟩
    rw [hdone] at hnext
    cases hnext

end

end Siglog.Vindex
