import Siglog.Vindex.Recovery

/-! Sequences of calls to index entries, with failures and retries. A call that fails
leaves no trace, and a retry of an indexed entry changes nothing, so a sequence ends in
the index that one call for each entry builds. -/

namespace Siglog.Vindex

open Concurrent (Prog)
open Concurrent.Sys (runAlone)
open VerifiableIndex (record)

section

variable [Sha256]

/-! ### The WAL -/

/-- A write to the WAL that succeeds. -/
def WalWritten : (o : Section) → o.Answer → Prop
  | .append _ _, answer => answer = .ok ()
  | _, _ => True

omit [Sha256] in
theorem call_stops {α : Type} (o : Section) (ho : ∀ answer, WalWritten o answer)
    {f : o.Answer → IndexProg α} (hf : ∀ answer, (f answer).Stops WalWritten fun _ => True) :
    ((Prog.call o).bind f).Stops WalWritten fun _ => True :=
  ⟨fun answer h => absurd (ho answer) h, hf⟩

omit [Sha256] in
theorem grow_stops (idx : ℕ) :
    ((Prog.call (Section.growTreeSize idx)).bind fun r => (Prog.ofExcept r).bind fun _ =>
    Prog.call Section.countIndexed : IndexProg Unit).Stops WalWritten fun _ => True := by
  refine call_stops (.growTreeSize idx) (fun _ => trivial) fun grown =>
    Prog.stops_bind Prog.stops_ofExcept fun _ => ?_
  exact ⟨fun _ h => absurd trivial h, fun _ => trivial⟩

omit [Sha256] in
theorem append_stops (hasWal : Bool) (idx : ℕ) (keys : List IndexKey) {p : IndexProg Unit}
    (hp : p.Stops WalWritten fun _ => True) :
    (if hasWal then (Prog.call (Section.append idx keys)).bind fun r => (ofResult r).bind fun _ => p
      else p).Stops
      WalWritten fun _ => True := by
  cases hasWal with
  | false => exact hp
  | true =>
    refine ⟨fun answer h => ?_, fun answer => ?_⟩
    · cases answer with
      | ok u => exact absurd rfl h
      | error e => exact ⟨.err e, rfl, trivial⟩
    · cases answer with
      | ok u => exact hp
      | error e => trivial

omit [Sha256] in
/-- A write that fails ends the call. -/
theorem indexEntry_stops (mapFn : Bytes → List IndexKey) (hasWal : Bool) (idx : ℕ) (data : Bytes) :
    (indexEntry mapFn hasWal idx data).Stops WalWritten fun _ => True := by
  rw [indexEntry]
  refine call_stops .treeSize (fun _ => trivial) fun next =>
    Prog.stops_bind Prog.stops_ofExcept fun next => ?_
  by_cases hlt : idx < next
  · rw [if_pos hlt]
    trivial
  by_cases hne : idx ≠ next
  · rw [if_neg hlt, if_pos hne]
    trivial
  rw [if_neg hlt, if_neg hne]
  dsimp only
  generalize sortedKeys (mapFn data) = keys
  by_cases hmany : maxKeysPerEntry < keys.length
  · rw [if_pos hmany]
    trivial
  by_cases hnone : keys = []
  · rw [if_neg hmany, if_pos hnone]
    exact append_stops hasWal idx keys (grow_stops idx)
  · rw [if_neg hmany, if_neg hnone]
    refine call_stops (.checkLimits keys) (fun _ => trivial) fun checked =>
      Prog.stops_bind Prog.stops_ofExcept fun _ => ?_
    apply append_stops hasWal idx keys
    refine call_stops (.record idx keys) (fun _ => trivial) fun recorded =>
      Prog.stops_bind Prog.stops_ofExcept fun _ => ?_
    exact grow_stops idx

/-- A call that succeeds would have done the same with a WAL that works. -/
theorem runAlone_wal {α : Type} {wal : Except Error Unit} {p : IndexProg α}
    (hp : p.Stops WalWritten fun _ => True) {s s' : VerifiableIndex} {a : α}
    (h : runAlone (VerifiableIndex.perform wal) p s = (.ok a, s')) :
    runAlone (VerifiableIndex.perform (.ok ())) p s = (.ok a, s') := by
  induction p generalizing s with
  | pure b => exact h
  | fail e => cases h
  | op o k ih =>
    have hsame : ∀ answer, s.perform wal o = answer → s.perform (.ok ()) o = answer →
        runAlone (VerifiableIndex.perform (.ok ())) (.op o k) s = (.ok a, s') := by
      intro answer hw hok
      rw [Concurrent.Sys.runAlone, hw] at h
      rw [Concurrent.Sys.runAlone, hok]
      exact ih _ (hp.2 _) h
    cases o with
    | append idx keys =>
      cases wal with
      | ok u => exact h
      | error e =>
        obtain ⟨e', hk, -⟩ := hp.1 (.error e) (fun h => by cases h)
        rw [Concurrent.Sys.runAlone] at h
        change runAlone _ (k (.error e)) s = _ at h
        rw [hk] at h
        cases h
    | _ => exact hsame _ rfl rfl

/-! ### Sequences of calls -/

/-- One call to index an entry of the log, and how its write to the WAL would end. -/
structure IndexCall where
  idx : ℕ
  wal : Except Error Unit

variable (c : Config) (entries : ℕ → Bytes)

def IndexCall.run (call : IndexCall) (s : VerifiableIndex) :
    Except (Fault Error) Unit × VerifiableIndex :=
  runAlone (VerifiableIndex.perform call.wal)
    (indexEntry c.mapFn c.hasWal call.idx (entries call.idx)) s

/-- Calls one after the other: the index of each with its result, and the last state. -/
def runCalls :
    List IndexCall → VerifiableIndex → List (ℕ × Except (Fault Error) Unit) × VerifiableIndex
  | [], s => ([], s)
  | call :: calls, s =>
    let r := call.run c entries s
    let rest := runCalls calls r.2
    ((call.idx, r.1) :: rest.1, rest.2)

/-- Each of the first `n` entries once, in order, with a WAL that works. -/
def callsOnce (n : ℕ) : List IndexCall := (List.range n).map fun idx => ⟨idx, .ok ()⟩

theorem runCalls_append (calls calls' : List IndexCall) (s : VerifiableIndex) :
    runCalls c entries (calls ++ calls') s =
      ((runCalls c entries calls s).1 ++
        (runCalls c entries calls' (runCalls c entries calls s).2).1,
        (runCalls c entries calls' (runCalls c entries calls s).2).2) := by
  induction calls generalizing s with
  | nil => rfl
  | cons call calls ih => simp only [List.cons_append, runCalls, ih]

theorem IndexCall.outcome (call : IndexCall) (s : VerifiableIndex) :
    Outcome call.idx (sortedKeys (c.mapFn (entries call.idx))) s (call.run c entries s) :=
  indexEntry_outcome c.mapFn c.hasWal call.idx (entries call.idx) call.wal s

variable {c entries}

/-- An index that is what one call for each of its entries builds. -/
def BuiltOnce (c : Config) (entries : ℕ → Bytes) (s₀ s : VerifiableIndex) : Prop :=
  runCalls c entries (callsOnce s.treeSize) s₀ =
    ((List.range s.treeSize).map fun idx => (idx, .ok ()), s)

/-- One call keeps it so, and an entry is below the tree size exactly if it was or the call
succeeds. -/
theorem BuiltOnce.call {s₀ s : VerifiableIndex} (h : BuiltOnce c entries s₀ s) (call : IndexCall)
    (hpanic : (call.run c entries s).1 ≠ .error .panic) :
    BuiltOnce c entries s₀ (call.run c entries s).2 ∧
      ∀ i, i < (call.run c entries s).2.treeSize ↔ i < s.treeSize ∨ call.idx = i ∧
        (call.run c entries s).1 = .ok () := by
  have houtcome := IndexCall.outcome c entries call s
  have hwal : ∀ s', call.run c entries s = (.ok (), s') →
      (⟨call.idx, .ok ()⟩ : IndexCall).run c entries s = (.ok (), s') :=
    fun s' => runAlone_wal (indexEntry_stops c.mapFn c.hasWal call.idx (entries call.idx))
  generalize call.run c entries s = r at *
  cases houtcome with
  | panic s' => exact absurd rfl hpanic
  | failed e => exact ⟨h, fun i => by simp⟩
  | skipped hlt => exact ⟨h, fun i => by simp; omega⟩
  | recorded index tree hidx hfits hp hlimits hrecord =>
    refine ⟨?_, fun i => ?_⟩
    · have hlast := hwal _ rfl
      rw [hidx] at hlast
      rw [BuiltOnce, callsOnce, VerifiableIndex.recorded]
      dsimp only
      rw [List.range_succ, List.map_append, runCalls_append, ← callsOnce, h, List.map_append]
      simp only [List.map_cons, List.map_nil, runCalls, hlast]
      rfl
    · simp only [VerifiableIndex.recorded, and_true]
      omega

/-! ### Limits -/

omit [Sha256] in
theorem length_keys_insert_le (index : IndexMap) (k : IndexKey) (indices : List ℕ) :
    (index.insert k indices).keys.length ≤ if k ∈ index then index.keys.length
    else index.keys.length + 1 := by
  have hmem : ∀ key ∈ (index.insert k indices).keys, key = k ∨ key ∈ index.keys :=
    fun key hkey => (AList.mem_insert index).mp (AList.mem_keys.mpr hkey)
  have hnodup := (index.insert k indices).keys_nodup
  split_ifs with hk
  · refine (hnodup.subperm fun key hkey => ?_).length_le
    rcases hmem key hkey with rfl | hold
    · exact AList.mem_keys.mp hk
    · exact hold
  · exact (hnodup.subperm fun key hkey => List.mem_cons.mpr (hmem key hkey)).length_le

theorem record_keys {idx : ℕ} {keys : List IndexKey} {index index' : IndexMap}
    {tree tree' : PrefixTree} (h : record idx keys index tree = .ok (index', tree')) :
    index'.keys.length ≤ index.keys.length + (keys.filter fun k => k ∉ index).length := by
  induction keys generalizing index tree with
  | nil =>
    cases h
    exact Nat.le_add_right _ _
  | cons k keys ih =>
    have hfilter :
        (keys.filter fun k => k ∉ index).length ≤ ((k :: keys).filter fun k => k ∉ index).length :=
      ((List.sublist_cons_self k keys).filter _).length_le
    rw [record] at h
    split_ifs at h with hin
    · exact (ih h).trans (Nat.add_le_add_left hfilter _)
    · obtain ⟨tree₁, -, h⟩ := bind_eq_ok h
      have hrest := ih h
      have hinsert := length_keys_insert_le index k (indicesOf index k ++ [idx])
      have hmono :
          (keys.filter fun key => key ∉ index.insert k (indicesOf index k ++ [idx])).length ≤
          (keys.filter fun key => key ∉ index).length := by
        refine (List.monotone_filter_right keys fun key hkey => ?_).length_le
        simp only [decide_eq_true_eq, AList.mem_insert, not_or] at hkey ⊢
        exact hkey.2
      by_cases hk : k ∈ index
      · rw [if_pos hk] at hinsert
        omega
      · rw [if_neg hk] at hinsert
        rw [List.filter_cons_of_pos (by simpa using hk), List.length_cons]
        omega

/-- The check counts the keys that are new. -/
theorem record_maxKeys {s : VerifiableIndex} (h : s.index.keys.length ≤ s.maxKeys) {idx : ℕ}
    {keys : List IndexKey}
    {index : IndexMap} {tree : PrefixTree} (hlimits : keys = [] ∨ s.checkLimits keys = .ok ())
    (hrecord : record idx keys s.index s.prefixTree = .ok (index, tree)) :
    index.keys.length ≤ s.maxKeys := by
  rcases hlimits with rfl | hlimits
  · cases hrecord
    exact h
  · rw [VerifiableIndex.checkLimits] at hlimits
    split_ifs at hlimits with hkeys
    exact (record_keys hrecord).trans (not_lt.mp hkeys)

/-- The check passes over a key that is new, and so a key gets its first index under every limit. -/
theorem record_maxIndicesPerKey {s : VerifiableIndex}
    (h : ∀ key, (indicesOf s.index key).length ≤ s.maxIndicesPerKey)
    {idx : ℕ} {keys : List IndexKey} {index : IndexMap} {tree : PrefixTree}
    (hpos : 0 < s.maxIndicesPerKey ∨ keys = [])
    (hlimits : keys = [] ∨ s.checkLimits keys = .ok ())
    (hrecord : record idx keys s.index s.prefixTree = .ok (index, tree)) (key : IndexKey) :
    (indicesOf index key).length ≤ s.maxIndicesPerKey := by
  rcases hlimits with rfl | hlimits
  · cases hrecord
    exact h key
  rw [record_indices hrecord]
  split_ifs with hnew
  · have hpos : 0 < s.maxIndicesPerKey := hpos.resolve_right (List.ne_nil_of_mem hnew.1)
    have hnone : keys.findSome? (fun k => (s.index.lookup k).filter fun indices =>
        s.maxIndicesPerKey ≤ indices.length) = none := by
      rw [VerifiableIndex.checkLimits] at hlimits
      split_ifs at hlimits
      by_contra hsome
      obtain ⟨indices, hindices⟩ := Option.ne_none_iff_exists'.mp hsome
      rw [hindices] at hlimits
      cases hlimits
    have hfilter := List.findSome?_eq_none_iff.mp hnone key hnew.1
    rw [List.length_append, List.length_singleton, indicesOf]
    cases hlookup : s.index.lookup key with
    | none => exact hpos
    | some indices =>
      rw [hlookup] at hfilter
      have hroom : ¬ s.maxIndicesPerKey ≤ indices.length := by simpa using hfilter
      exact Nat.succ_le_of_lt (not_le.mp hroom)
  · exact h key

/-! ### Runs -/

/-- What holds of an index after calls that start from an empty one. -/
structure Retried (c : Config) (entries : ℕ → Bytes) (maxKeys maxIndicesPerKey : ℕ)
    (s : VerifiableIndex) : Prop where
  built : BuiltOnce c entries (.new maxKeys maxIndicesPerKey) s
  keyLimit : s.maxKeys = maxKeys
  indexLimit : s.maxIndicesPerKey = maxIndicesPerKey
  keys : s.index.keys.length ≤ maxKeys

theorem retried_new (maxKeys maxIndicesPerKey : ℕ) :
    Retried c entries maxKeys maxIndicesPerKey (.new maxKeys maxIndicesPerKey) :=
  ⟨rfl, rfl, rfl, Nat.zero_le _⟩

variable {maxKeys maxIndicesPerKey : ℕ} {s : VerifiableIndex}

theorem Retried.call (h : Retried c entries maxKeys maxIndicesPerKey s) (call : IndexCall)
    (hpanic : (call.run c entries s).1 ≠ .error .panic) :
    Retried c entries maxKeys maxIndicesPerKey (call.run c entries s).2 := by
  have hbuilt := (h.built.call call hpanic).1
  have houtcome := IndexCall.outcome c entries call s
  generalize call.run c entries s = r at *
  cases houtcome with
  | panic s' => exact absurd rfl hpanic
  | failed e => exact ⟨hbuilt, h.keyLimit, h.indexLimit, h.keys⟩
  | skipped hlt => exact ⟨hbuilt, h.keyLimit, h.indexLimit, h.keys⟩
  | recorded index tree hidx hfits hp hlimits hrecord =>
    refine ⟨hbuilt, h.keyLimit, h.indexLimit, ?_⟩
    obtain rfl := h.keyLimit
    exact record_maxKeys h.keys hlimits hrecord

/-- The call is for the next entry, and no limit on keys is passed by it. -/
def IndexCall.Admitted (c : Config) (entries : ℕ → Bytes) (call : IndexCall)
    (s : VerifiableIndex) : Prop :=
  call.idx = s.treeSize ∧ (sortedKeys (c.mapFn (entries call.idx))).length ≤ maxKeysPerEntry ∧
    s.checkLimits (sortedKeys (c.mapFn (entries call.idx))) = .ok ()

/-- No call of the sequence is admitted with keys. -/
def Keyless (c : Config) (entries : ℕ → Bytes) (calls : List IndexCall)
    (s : VerifiableIndex) : Prop :=
  ∀ before call after, calls = before ++ call :: after →
    call.Admitted c entries (runCalls c entries before s).2 → c.mapFn (entries call.idx) = []

theorem Keyless.tail {call : IndexCall} {calls : List IndexCall}
    (h : Keyless c entries (call :: calls) s) :
    Keyless c entries calls (call.run c entries s).2 := by
  rintro before other after rfl hadmitted
  exact h (call :: before) other after rfl hadmitted

theorem Retried.indices (h : Retried c entries maxKeys maxIndicesPerKey s)
    (hwithin : ∀ key, (indicesOf s.index key).length ≤ maxIndicesPerKey) (call : IndexCall)
    (hpos : 0 < maxIndicesPerKey ∨
      (call.Admitted c entries s → c.mapFn (entries call.idx) = []))
    (hpanic : (call.run c entries s).1 ≠ .error .panic) (key : IndexKey) :
    (indicesOf (call.run c entries s).2.index key).length ≤ maxIndicesPerKey := by
  have houtcome := IndexCall.outcome c entries call s
  unfold IndexCall.Admitted at hpos
  generalize call.run c entries s = r at *
  cases houtcome with
  | panic s' => exact absurd rfl hpanic
  | failed e => exact hwithin key
  | skipped hlt => exact hwithin key
  | recorded index tree hidx hfits hp hlimits hrecord hfew =>
    obtain rfl := h.indexLimit
    refine record_maxIndicesPerKey hwithin ?_ hlimits hrecord key
    rcases hlimits with hnone | hlimits
    · exact .inr hnone
    · refine hpos.imp_right fun hnone => ?_
      rw [hnone ⟨hidx, hfew, hlimits⟩]
      rfl

/-- A run of calls, of which none panics. -/
theorem Retried.run (calls : List IndexCall) (h : Retried c entries maxKeys maxIndicesPerKey s)
    (hpanic : ∀ r ∈ (runCalls c entries calls s).1, r.2 ≠ .error .panic) :
    Retried c entries maxKeys maxIndicesPerKey (runCalls c entries calls s).2 ∧
      (∀ i, i < (runCalls c entries calls s).2.treeSize ↔ i < s.treeSize ∨
        (i, .ok ()) ∈ (runCalls c entries calls s).1) ∧
      ((∀ key, (indicesOf s.index key).length ≤ maxIndicesPerKey) →
        (0 < maxIndicesPerKey ∨ Keyless c entries calls s) →
        ∀ key, (indicesOf (runCalls c entries calls s).2.index key).length ≤ maxIndicesPerKey) := by
  induction calls generalizing s with
  | nil => exact ⟨h, fun i => by simp [runCalls], fun hwithin _ => hwithin⟩
  | cons call calls ih =>
    obtain ⟨hfirst, hrest⟩ := List.forall_mem_cons.mp hpanic
    obtain ⟨hretried, hsize, hindices⟩ := ih (h.call call hfirst) hrest
    have hcall := (h.built.call call hfirst).2
    refine ⟨hretried, fun i => ?_, fun hwithin hpos => ?_⟩
    · change i < (runCalls c entries calls (call.run c entries s).2).2.treeSize ↔ _ ∨
        (i, Except.ok ()) ∈ _ :: _
      rw [hsize, hcall, List.mem_cons, Prod.mk.injEq, or_assoc, @eq_comm _ i,
        @eq_comm _ (Except.ok ()) (call.run c entries s).1]
    · refine hindices (h.indices hwithin call ?_ hfirst) (hpos.imp_right Keyless.tail)
      exact hpos.imp_right fun hnone => hnone [] call calls rfl

/-- Calls for indices below the last number of 64 bits do not panic. -/
theorem runCalls_ne_panic (calls : List IndexCall) (hfits : ∀ call ∈ calls, call.idx + 1 < 2 ^ 64)
    (hp : s.poisoned = false) (hsound : Sound s.index s.prefixTree) :
    ∀ r ∈ (runCalls c entries calls s).1, r.2 ≠ .error .panic := by
  induction calls generalizing s with
  | nil => simp [runCalls]
  | cons call calls ih =>
    have houtcome := IndexCall.outcome c entries call s
    obtain ⟨hfirst, hrest⟩ := List.forall_mem_cons.mp hfits
    obtain ⟨index, tree, hrecord, hsound', -⟩ :=
      record_sound hsound call.idx (sortedKeys (c.mapFn (entries call.idx)))
    rw [runCalls]
    generalize call.run c entries s = r at *
    cases houtcome with
    | panic s' hpanic =>
      rcases hpanic with hpoisoned | hover | hpanic
      · rw [hp] at hpoisoned
        cases hpoisoned
      · omega
      · rw [hrecord] at hpanic
        cases hpanic
    | failed e => exact List.forall_mem_cons.mpr ⟨by simp, ih hrest hp hsound⟩
    | skipped hlt => exact List.forall_mem_cons.mpr ⟨by simp, ih hrest hp hsound⟩
    | recorded index' tree' hidx hfits hp' hlimits hrecord' =>
      obtain ⟨rfl, rfl⟩ := Prod.mk.inj (Except.ok.inj (hrecord'.symm.trans hrecord))
      exact List.forall_mem_cons.mpr ⟨by simp, ih hrest hp hsound'⟩

/-- A call that fails leaves no trace. A sequence of calls with failures and retries ends in the
index that one call for each entry that succeeded builds, and calls for indices below the last
number of 64 bits do not panic. The number of keys stays below its limit, and so does the number
of indices under a key, when its limit is not zero or no call with keys is admitted. -/
theorem indexEntry_retries (mapFn : Bytes → List IndexKey) (hasWal : Bool) (entries : ℕ → Bytes) :
    (∀ s idx data wal e s', runAlone (VerifiableIndex.perform wal)
      (indexEntry mapFn hasWal idx data) s = (.error (.err e), s') →
      s'.index = s.index ∧ s'.rootHash = s.rootHash ∧ s'.treeSize = s.treeSize) ∧
    ∀ maxKeys maxIndicesPerKey calls,
      let start := VerifiableIndex.new maxKeys maxIndicesPerKey
      let r := runCalls ⟨mapFn, hasWal⟩ entries calls start
      ((∀ call ∈ calls, call.idx + 1 < 2 ^ 64) → ∀ x ∈ r.1, x.2 ≠ .error .panic) ∧
      ((∀ x ∈ r.1, x.2 ≠ .error .panic) →
        (∀ i, (i, .ok ()) ∈ r.1 ↔ i < r.2.treeSize) ∧
        runCalls ⟨mapFn, hasWal⟩ entries (callsOnce r.2.treeSize) start =
          ((List.range r.2.treeSize).map fun i => (i, .ok ()), r.2) ∧
        r.2.index.keys.length ≤ maxKeys ∧
        ((0 < maxIndicesPerKey ∨ Keyless ⟨mapFn, hasWal⟩ entries calls start) →
          ∀ key, (indicesOf r.2.index key).length ≤ maxIndicesPerKey)) := by
  constructor
  · intro s idx data wal e s' hrun
    have houtcome := indexEntry_outcome mapFn hasWal idx data wal s
    rw [hrun] at houtcome
    cases houtcome with
    | failed => exact ⟨rfl, rfl, rfl⟩
  · intro maxKeys maxIndicesPerKey calls start r
    refine ⟨fun hfits => runCalls_ne_panic calls hfits rfl (sound_new _ _), fun hpanic => ?_⟩
    obtain ⟨hretried, hsize, hindices⟩ := (retried_new maxKeys maxIndicesPerKey).run calls hpanic
    refine ⟨fun i => ?_, hretried.built, hretried.keys, hindices fun key => ?_⟩
    · exact ((hsize i).trans (or_iff_right (Nat.not_lt_zero i))).symm
    · exact Nat.zero_le _

end

/-! ### A limit of zero -/

section

attribute [local instance] endsSha256

/-- A key gets an index under a limit of zero. -/
theorem indexEntry_retries_zero :
    let r := runCalls ⟨fun _ => [oneKey], false⟩ (fun _ => []) [⟨0, .ok ()⟩] (.new 1 0)
    (∀ x ∈ r.1, x.2.isOk) ∧ ¬ ∀ key, (indicesOf r.2.index key).length ≤ r.2.maxIndicesPerKey := by
  intro r
  have hkey : ¬ (indicesOf r.2.index oneKey).length ≤ r.2.maxIndicesPerKey := by decide +kernel
  exact ⟨by decide +kernel, fun h => hkey (h oneKey)⟩

end

end Siglog.Vindex
