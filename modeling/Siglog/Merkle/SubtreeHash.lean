import Siglog.Merkle.ProofCorrect

/-! The hash of a range over a store in which tiles may be missing. The tiles that a
range needs are known before the first read, and one that is not there ends the
computation with an error. -/

namespace Siglog.Merkle

open Concurrent (Prog)
open Api (tileWidth tileWidth_eq partialTileSize)
open Rfc (mth rangeHash split row)

/-- The tile of the leaf at an index. -/
def leafTile (index treeSize : ℕ) : ReadTile :=
  ⟨0, index / tileWidth, partialTileSize 0 (index / tileWidth) treeSize⟩

/-- The tile with the bottom row below a complete subtree. -/
def rowTile (level index treeSize : ℕ) : ReadTile :=
  let tileIndex := index * 2 ^ (level % 8) / tileWidth
  ⟨level / 8, tileIndex, partialTileSize (level / 8) tileIndex treeSize⟩

/-- The tiles that the hash of a range needs, in the order in which they are read. -/
def subtreeTiles (start stop treeSize : ℕ) : List ReadTile :=
  if stop - start < 2 then [leafTile start treeSize]
  else if IsPowerOfTwo (stop - start) ∧ start % (stop - start) = 0 then
    let level := trailingZeros (stop - start)
    [rowTile level (start / 2 ^ level) treeSize]
  else
    let k := split (stop - start)
    subtreeTiles start (start + k) treeSize ++ subtreeTiles (start + k) stop treeSize
termination_by stop - start
decreasing_by
  · have := Rfc.split_lt (n := stop - start) (by omega)
    omega
  · have := Rfc.split_pos (stop - start)
    omega

variable {H : Type} [Sha256Hash H] {D : List H}

/-- The tiles of the tree over `D` that are there are right. -/
def PresentAnswers (D : List H) : (o : ReadTile) → o.Answer H → Prop
  | ⟨level, index, part⟩, answer => ∀ tile, answer = some tile →
    tileWidth * index < D.length / 2 ^ (8 * level) → part = partialTileSize level index D.length →
      TileCorrect D level index tile

/-! ### Missing tiles are errors -/

section

/-- The error of a failed read. -/
def IsErr (e : Fault Error) : Prop := ∃ error, e = .err error

omit [Sha256Hash H] in
theorem stops_readTile {α : Type} {level index part : ℕ} {f : Option (HashTile H) → TileReader H α}
    (hnone : ∃ e, f none = .fail e ∧ IsErr e)
    (hsome : ∀ tile, (f (some tile)).Stops (fun _ answer => answer.isSome) IsErr) :
    ((readTile level index part).bind f).Stops (fun _ answer => answer.isSome) IsErr := by
  rw [readTile]
  split_ifs
  · trivial
  · refine ⟨fun answer h => ?_, fun answer => ?_⟩
    · cases answer with
      | none => exact hnone
      | some tile => exact absurd rfl h
    · cases answer with
      | none =>
        obtain ⟨e, he, -⟩ := hnone
        change (f none).Stops _ _
        rw [he]
        trivial
      | some tile => exact hsome tile

omit [Sha256Hash H] in
theorem readLeafHash_stops (index treeSize : ℕ) :
    (readLeafHash index treeSize : TileReader H H).Stops (fun _ answer => answer.isSome) IsErr := by
  rw [readLeafHash]
  refine Prog.stops_bind Prog.stops_ofExcept fun part => stops_readTile ⟨_, rfl, _, rfl⟩ fun tile =>
    ?_
  dsimp only
  split <;> trivial

theorem tryReadTileHash_stops (level index treeSize : ℕ) :
    (tryReadTileHash level index treeSize : TileReader H H).Stops (fun _ answer => answer.isSome)
      IsErr := by
  rw [tryReadTileHash]
  refine Prog.stops_bind Prog.stops_ofExcept fun bottomIndex =>
    stops_readTile ⟨_, rfl, _, rfl⟩ fun tile => ?_
  dsimp only
  split_ifs
  · trivial
  · split <;> trivial

/-- Whatever tile is missing, the computation ends there with an error. -/
theorem computeSubtreeHash_stops (start stop treeSize : ℕ) :
    (computeSubtreeHash start stop treeSize : TileReader H H).Stops (fun _ answer => answer.isSome)
      IsErr := by
  induction hc : stop - start using Nat.strong_induction_on generalizing start stop with
  | h c ih =>
    subst hc
    rw [computeSubtreeHash]
    split_ifs
    · trivial
    · trivial
    · exact readLeafHash_stops _ _
    · exact tryReadTileHash_stops _ _ _
    · split
      · trivial
      rename_i k hk
      have hlt := largestPowerOf2LessThan_lt hk (by omega)
      have hpos := largestPowerOf2LessThan_pos hk (by omega)
      refine Prog.stops_bind (ih _ (by omega) _ _ rfl) fun left => ?_
      exact Prog.stops_bind (ih _ (by omega) _ _ rfl) fun right => trivial

theorem generateInclusionProof_stops (index treeSize : ℕ) :
    (generateInclusionProof index treeSize : TileReader H (List H)).Stops
    (fun _ answer => answer.isSome) IsErr := by
  have hhashes : ∀ ranges : List (ℕ × ℕ),
      (subtreeHashes treeSize ranges : TileReader H (List H)).Stops (fun _ answer => answer.isSome)
        IsErr := by
    intro ranges
    induction ranges with
    | nil => trivial
    | cons range ranges ih =>
      exact Prog.stops_bind (computeSubtreeHash_stops _ _ _) fun hash =>
        Prog.stops_bind ih fun proof => trivial
  rw [generateInclusionProof]
  split_ifs
  · trivial
  · exact Prog.stops_bind Prog.stops_ofExcept fun siblings => hhashes _

end

/-! ### The reads -/

section

variable {store : (o : ReadTile) → o.Answer H}

omit [Sha256Hash H] in
theorem trace_readTile {α : Type} {level index part : ℕ} {f : Option (HashTile H) → TileReader H α}
    (hl : level ≤ 63) (hf : ∀ answer, (f answer).trace store = []) :
    (((readTile level index part).bind f).trace store).map Sigma.fst = [⟨level, index, part⟩] := by
  rw [readTile, if_neg (by omega)]
  change ⟨level, index, part⟩ :: ((f (store ⟨level, index, part⟩)).trace store).map Sigma.fst = _
  rw [hf]
  rfl

omit [Sha256Hash H] in
theorem readLeafHash_trace {i : ℕ} (hi : i < D.length) (hn : D.length ≤ i64Max) :
    ((readLeafHash i D.length).trace store).map Sigma.fst = [leafTile i D.length] := by
  rw [readLeafHash, leafPartial_eq hi hn]
  refine trace_readTile (by omega) fun answer => ?_
  cases answer with
  | none => rfl
  | some tile =>
    dsimp only
    split <;> rfl

theorem tryReadTileHash_trace {l i : ℕ} (h : (i + 1) * 2 ^ l ≤ D.length) (hn : D.length ≤ i64Max) :
    ((tryReadTileHash l i D.length).trace store).map Sigma.fst = [rowTile l i D.length] := by
  have hl := level_le hn h
  have hshift : i * 2 ^ (l % 8) < 2 ^ 64 := by
    have hpow : 2 ^ (l % 8) ≤ 2 ^ l := Nat.pow_le_pow_right (by omega) (Nat.mod_le l 8)
    have hmul : i * 2 ^ (l % 8) ≤ (i + 1) * 2 ^ l := Nat.mul_le_mul (Nat.le_succ i) hpow
    unfold i64Max at hn
    omega
  rw [tryReadTileHash, checkedShl_ok (by omega) hshift]
  refine trace_readTile (by omega) fun answer => ?_
  cases answer with
  | none => rfl
  | some tile =>
    dsimp only
    split_ifs
    · rfl
    · split <;> rfl

/-- Over a complete store exactly these tiles are read. -/
theorem computeSubtreeHash_trace {a b : ℕ} (hab : a < b) (hb : b ≤ D.length)
    (hn : D.length ≤ i64Max) (hstore : ∀ o, TileAnswers D o (store o)) :
    ((computeSubtreeHash a b D.length).trace store).map Sigma.fst = subtreeTiles a b D.length := by
  induction hc : b - a using Nat.strong_induction_on generalizing a b with
  | h c ih =>
    subst hc
    rw [computeSubtreeHash, subtreeTiles, if_neg (by omega), if_neg (by omega)]
    by_cases h1 : b - a = 1
    · rw [if_pos h1, if_pos (by omega)]
      exact readLeafHash_trace (by omega) hn
    rw [if_neg h1, if_neg (show ¬ b - a < 2 by omega)]
    by_cases hp : IsPowerOfTwo (b - a) ∧ a % (b - a) = 0
    · rw [if_pos hp, if_pos hp]
      obtain ⟨l, hl⟩ := isPowerOfTwo_iff.mp hp.1
      have hdvd := Nat.div_add_mod a (b - a)
      rw [hl] at hp hdvd ⊢
      simp only [trailingZeros_pow]
      refine tryReadTileHash_trace ?_ hn
      rw [Nat.succ_mul, mul_comm]
      omega
    · rw [if_neg hp, if_neg hp]
      have hk := Rfc.split_lt (n := b - a) (by omega)
      have hpos := Rfc.split_pos (b - a)
      have hpow : largestPowerOf2LessThan (b - a) =
          (.ok (split (b - a)) : Except (Fault Error) ℕ) :=
        largestPowerOf2LessThan_eq (by omega) (by unfold i64Max at hn; omega)
      split
      · simp_all
      rename_i k hk'
      obtain rfl : split (b - a) = k := by simpa [hpow] using hk'
      have hleft : a + split (b - a) ≤ D.length := by omega
      have heval := Prog.returns_eval hstore
        (computeSubtreeHash_returns (show a < a + split (b - a) by omega) hleft hn)
      have heval' := Prog.returns_eval hstore
        (computeSubtreeHash_returns (show a + split (b - a) < b by omega) hb hn)
      rw [Prog.bind_eq, Prog.trace_bind _ _ _ heval, Prog.bind_eq, Prog.trace_bind _ _ _ heval',
        List.map_append,
        List.map_append, ih _ (by omega) (by omega) hleft rfl, ih _ (by omega) (by omega) hb rfl]
      simp [Prog.trace]

end

/-! ### Over any store -/

/-- The tile with nothing but its bottom row. -/
def bottomRow (D : List H) : (o : ReadTile) → HashTile H
  | ⟨level, index, _⟩ => ⟨row D (8 * level) (tileWidth * index) (rowWidth level index D.length)⟩

theorem bottomRow_correct (D : List H) (level index part : ℕ) :
    TileCorrect D level index (bottomRow D ⟨level, index, part⟩) := by
  intro j hj
  rw [bottomRow, row, List.getElem?_map, List.getElem?_range' hj, Option.map_some, one_mul]

/-- The store with its gaps filled. -/
def filled (D : List H) (store : (o : ReadTile) → o.Answer H) (o : ReadTile) : o.Answer H :=
  (store o).or (some (bottomRow D o))

theorem filled_answers {store : (o : ReadTile) → o.Answer H}
    (hstore : ∀ o, PresentAnswers D o (store o))
    (o : ReadTile) : TileAnswers D o (filled D store o) := by
  obtain ⟨level, index, part⟩ := o
  intro hrow hpart
  cases h : store ⟨level, index, part⟩ with
  | none => exact ⟨_, by rw [filled, h]; rfl, bottomRow_correct D level index part⟩
  | some tile => exact ⟨tile, by rw [filled, h]; rfl, hstore _ tile h hrow hpart⟩

/-- The hash of a range of leaves is the tree hash of the range when all its tiles are there,
and an error when one is not. -/
theorem computeSubtreeHash_eval {a b : ℕ} (hab : a < b) (hb : b ≤ D.length) (hn : D.length ≤ i64Max)
    {store : (o : ReadTile) → o.Answer H} (hstore : ∀ o, PresentAnswers D o (store o)) :
    ((∀ o ∈ subtreeTiles a b D.length, (store o).isSome) →
        (computeSubtreeHash a b D.length).eval store = .ok (rangeHash D a (b - a))) ∧
      ((∃ o ∈ subtreeTiles a b D.length, store o = none) →
        ∃ e, (computeSubtreeHash a b D.length).eval store = .error (.err e)) := by
  have hfilled := filled_answers hstore
  have hagree : ∀ o, (store o).isSome → store o = filled D store o := by
    intro o h
    obtain ⟨tile, ht⟩ := Option.isSome_iff_exists.mp h
    rw [filled, ht]
    rfl
  have hreads := computeSubtreeHash_trace hab hb hn hfilled
  obtain ⟨hok, herr⟩ := Prog.stops_eval hagree (computeSubtreeHash_stops (H := H) a b D.length)
  have heval := Prog.returns_eval hfilled (computeSubtreeHash_returns hab hb hn)
  constructor
  · intro h
    rw [hok fun e he => h e.1 (hreads ▸ List.mem_map_of_mem he), heval]
  · rintro ⟨o, ho, hnone⟩
    rw [← hreads] at ho
    obtain ⟨e, he, rfl⟩ := List.mem_map.mp ho
    obtain ⟨_, herror, error, rfl⟩ := herr ⟨e, he, by rw [hnone]; exact Bool.false_ne_true⟩
    exact ⟨error, herror⟩

/-- Over a store that is right for the size, the hash of every range is the tree hash of the
range. Over one in which tiles are missing it is an error whenever the range needs one of
them, and no store of right tiles gives another hash. -/
theorem computeSubtreeHash_exact {a b : ℕ} (hab : a < b) (hb : b ≤ D.length)
    (hn : D.length ≤ i64Max)
    (store : (o : ReadTile) → o.Answer H) (hstore : ∀ o, PresentAnswers D o (store o)) :
    ((∀ o, TileAnswers D o (store o)) →
        (computeSubtreeHash a b D.length).eval store = .ok (mth ((D.drop a).take (b - a)))) ∧
      ((∀ o ∈ subtreeTiles a b D.length, (store o).isSome) →
        (computeSubtreeHash a b D.length).eval store = .ok (mth ((D.drop a).take (b - a)))) ∧
      ((∃ o ∈ subtreeTiles a b D.length, store o = none) →
        ∃ e, (computeSubtreeHash a b D.length).eval store = .error (.err e)) ∧
      ∀ hash, (computeSubtreeHash a b D.length).eval store = .ok hash →
        hash = mth ((D.drop a).take (b - a)) := by
  obtain ⟨hok, herr⟩ := computeSubtreeHash_eval hab hb hn hstore
  refine ⟨fun h => Prog.returns_eval h (computeSubtreeHash_returns hab hb hn), hok, herr,
    fun hash h => ?_⟩
  by_cases hall : ∀ o ∈ subtreeTiles a b D.length, (store o).isSome
  · exact Except.ok.inj (h.symm.trans (hok hall))
  · simp only [not_forall, Bool.not_eq_true, Option.isSome_eq_false_iff,
      Option.isNone_iff_eq_none] at hall
    obtain ⟨o, ho, hnone⟩ := hall
    obtain ⟨e, he⟩ := herr ⟨o, ho, hnone⟩
    rw [h] at he
    cases he

/-- Three leaves in the middle of a tree of five. -/
theorem computeSubtreeHash_exact_middle :
    let D : List FreeHash := [[1], [2], [3], [4], [5]].map hashLeaf
    (computeSubtreeHash 1 4 5).eval (fun o => some (bottomRow D o)) =
      .ok (mth ([[2], [3], [4]].map hashLeaf)) := by
  intro D
  refine (computeSubtreeHash_exact (D := D) (by decide) (by decide) (by decide) _ ?_).1 ?_
  · rintro ⟨level, index, part⟩ tile h - -
    obtain rfl := Option.some.inj h
    exact bottomRow_correct D level index part
  · rintro ⟨level, index, part⟩ - -
    exact ⟨_, rfl, bottomRow_correct D level index part⟩

end Siglog.Merkle
