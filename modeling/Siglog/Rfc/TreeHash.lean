import Mathlib.Data.Nat.Log
import Mathlib.Data.List.Basic
import Mathlib.Tactic.Common
import Mathlib.Tactic.Ring

/-! The Merkle tree hash of a list of leaf hashes. A list of at least two leaves
is split at the largest power of two below its length, and the hashes of the two
parts are combined. The combining function and the hash of the empty list are
parameters. Contiguous ranges of a list and their hashes have their own names,
since every proof about the tree is about such ranges. -/

namespace Siglog.Rfc

/-- How two subtree hashes are combined, and the hash of the empty tree. -/
class NodeHash (H : Type) where
  combine : H → H → H
  empty : H

export NodeHash (combine)

/-- The largest power of two smaller than `n`, for `2 ≤ n`. -/
def split (n : ℕ) : ℕ := 2 ^ (n - 1).log2

theorem split_pos (n : ℕ) : 0 < split n := Nat.two_pow_pos _

theorem split_lt {n : ℕ} (h : 2 ≤ n) : split n < n := by
  have := Nat.log2_self_le (n := n - 1) (by omega)
  unfold split
  omega

theorem le_two_mul_split {n : ℕ} (h : 2 ≤ n) : n ≤ 2 * split n := by
  have := Nat.lt_log2_self (n := n - 1)
  rw [pow_succ] at this
  unfold split
  omega

/-- The split point is determined by its two bounds. -/
theorem split_eq {n a : ℕ} (h : 2 ^ a < n) (h' : n ≤ 2 ^ (a + 1)) : split n = 2 ^ a := by
  have hlog : (n - 1).log2 = a := by
    have hpos := Nat.two_pow_pos a
    rw [Nat.log2_eq_iff (by omega)]
    omega
  rw [split, hlog]

/-- A part of a list between the split point and the end has the same split point
when the whole is cut short behind it. -/
theorem split_eq_of_le {m n : ℕ} (h : split n < m) (h' : m ≤ n) (hn : 2 ≤ n) :
    split m = split n :=
  split_eq h (by have := le_two_mul_split hn; rw [split] at this; rw [pow_succ]; omega)

variable {H : Type} [NodeHash H]

/-- `MTH`: the tree hash of a list of leaf hashes. -/
def mth : List H → H
  | [] => NodeHash.empty
  | [x] => x
  | x :: y :: D =>
    let k := split (D.length + 2)
    combine (mth ((x :: y :: D).take k)) (mth ((x :: y :: D).drop k))
termination_by D => D.length
decreasing_by
  all_goals
    have h := split_lt (n := D.length + 2) (by omega)
    have h' := split_pos (D.length + 2)
    simp only [List.length_take, List.length_drop, List.length_cons]
    omega

@[simp] theorem mth_nil : mth ([] : List H) = NodeHash.empty := by rw [mth]

@[simp] theorem mth_singleton (x : H) : mth [x] = x := by rw [mth]

theorem mth_split {D : List H} (h : 2 ≤ D.length) :
    mth D = combine (mth (D.take (split D.length))) (mth (D.drop (split D.length))) := by
  match D, h with
  | x :: y :: D, _ => rw [mth]; rfl

/-! ### Ranges -/

/-- The `c` leaves from `a` on. -/
def seg (D : List H) (a c : ℕ) : List H := (D.drop a).take c

/-- The tree hash of the `c` leaves from `a` on. -/
def rangeHash (D : List H) (a c : ℕ) : H := mth (seg D a c)

omit [NodeHash H] in
theorem seg_length {D : List H} {a c : ℕ} (h : a + c ≤ D.length) : (seg D a c).length = c := by
  simp only [seg, List.length_take, List.length_drop]
  omega

omit [NodeHash H] in
theorem seg_take {D : List H} {a c k : ℕ} (h : k ≤ c) : (seg D a c).take k = seg D a k := by
  rw [seg, List.take_take, Nat.min_eq_left h, seg]

omit [NodeHash H] in
theorem seg_drop (D : List H) (a c k : ℕ) : (seg D a c).drop k = seg D (a + k) (c - k) := by
  rw [seg, List.drop_take, List.drop_drop, seg]

omit [NodeHash H] in
@[simp] theorem seg_zero_length (D : List H) : seg D 0 D.length = D := by simp [seg]

omit [NodeHash H] in
theorem seg_zero (D : List H) (c : ℕ) : seg D 0 c = D.take c := by simp [seg]

omit [NodeHash H] in
theorem seg_append_left {D : List H} {a c : ℕ} (h : a + c ≤ D.length) (E : List H) :
    seg (D ++ E) a c = seg D a c := by
  simp only [seg]
  rw [List.drop_append_of_le_length (by omega),
    List.take_append_of_le_length (by simp only [List.length_drop]; omega)]

omit [NodeHash H] in
theorem seg_one {D : List H} {a : ℕ} {x : H} (h : D[a]? = some x) : seg D a 1 = [x] := by
  obtain ⟨ha, rfl⟩ := List.getElem?_eq_some_iff.mp h
  rw [seg, List.drop_eq_getElem_cons ha]
  rfl

omit [NodeHash H] in
theorem seg_add {D : List H} (a b c : ℕ) : seg D a (b + c) = seg D a b ++ seg D (a + b) c := by
  rw [seg, List.take_add, List.drop_drop]
  rfl

omit [NodeHash H] in
theorem take_append_seg {D : List H} {m n : ℕ} (h : m ≤ n) :
    D.take m ++ seg D m (n - m) = D.take n := by
  have hadd := seg_add (D := D) 0 m (n - m)
  rw [Nat.zero_add, seg_zero, seg_zero, Nat.add_sub_cancel' h] at hadd
  exact hadd.symm

theorem rangeHash_full (D : List H) : rangeHash D 0 D.length = mth D := by
  rw [rangeHash, seg_zero_length]

theorem rangeHash_take (D : List H) (c : ℕ) : rangeHash D 0 c = mth (D.take c) := by
  rw [rangeHash, seg_zero]

theorem rangeHash_one {D : List H} {a : ℕ} {x : H} (h : D[a]? = some x) :
    rangeHash D a 1 = x := by
  rw [rangeHash, seg_one h, mth_singleton]

/-- The defining equation of the tree hash, on ranges. -/
theorem rangeHash_split {D : List H} {a c : ℕ} (hc : 2 ≤ c) (h : a + c ≤ D.length) :
    rangeHash D a c =
      combine (rangeHash D a (split c)) (rangeHash D (a + split c) (c - split c)) := by
  have hs := split_lt hc
  rw [rangeHash, mth_split (by rw [seg_length h]; exact hc), seg_length h, seg_take hs.le, seg_drop]
  rfl

theorem rangeHash_append_left {D : List H} {a c : ℕ} (h : a + c ≤ D.length) (E : List H) :
    rangeHash (D ++ E) a c = rangeHash D a c := by
  rw [rangeHash, rangeHash, seg_append_left h]

/-- A range that ends in a full right half of twice the size. -/
theorem rangeHash_pow_add {D : List H} {a r l : ℕ} (hr : 0 < r) (hr' : r ≤ 2 ^ l)
    (h : a + (2 ^ l + r) ≤ D.length) :
    rangeHash D a (2 ^ l + r) = combine (rangeHash D a (2 ^ l)) (rangeHash D (a + 2 ^ l) r) := by
  have hpos := Nat.two_pow_pos l
  have hs : split (2 ^ l + r) = 2 ^ l := split_eq (by omega) (by rw [pow_succ]; omega)
  rw [rangeHash_split (by omega) h, hs, Nat.add_sub_cancel_left]

/-! ### Complete subtrees -/

/-- The hash of the complete subtree with index `i` at level `l`: the leaves
from `i * 2 ^ l` up to `(i + 1) * 2 ^ l`. -/
def subtree (D : List H) (l i : ℕ) : H := rangeHash D (i * 2 ^ l) (2 ^ l)

theorem subtree_zero {D : List H} {i : ℕ} {x : H} (h : D[i]? = some x) : subtree D 0 i = x := by
  rw [subtree, pow_zero, mul_one]
  exact rangeHash_one h

theorem subtree_succ {D : List H} {l i : ℕ} (h : (i + 1) * 2 ^ (l + 1) ≤ D.length) :
    subtree D (l + 1) i = combine (subtree D l (2 * i)) (subtree D l (2 * i + 1)) := by
  have hp : 2 ^ (l + 1) = 2 ^ l + 2 ^ l := by ring
  have e : i * 2 ^ (l + 1) = 2 * i * 2 ^ l := by ring
  have e' : i * 2 ^ (l + 1) + 2 ^ l = (2 * i + 1) * 2 ^ l := by ring
  unfold subtree
  rw [← e', ← e, hp, rangeHash_pow_add (Nat.two_pow_pos l) le_rfl]
  rw [add_mul, one_mul, hp] at h
  exact h

theorem subtree_append_left {D : List H} {l i : ℕ} (h : (i + 1) * 2 ^ l ≤ D.length) (E : List H) :
    subtree (D ++ E) l i = subtree D l i :=
  rangeHash_append_left (by rw [add_mul, one_mul] at h; exact h) E

/-- A range of a power-of-two length at a multiple of that length is a complete subtree. -/
theorem rangeHash_aligned (D : List H) {a l : ℕ} (h : a % 2 ^ l = 0) :
    rangeHash D a (2 ^ l) = subtree D l (a / 2 ^ l) := by
  rw [subtree, Nat.div_mul_cancel (Nat.dvd_of_mod_eq_zero h)]

/-- The hashes of `c` neighbouring complete subtrees of one level, from index `a` on. -/
def row (D : List H) (l a c : ℕ) : List H := (List.range' a c).map (subtree D l)

@[simp] theorem length_row (D : List H) (l a c : ℕ) : (row D l a c).length = c := by simp [row]

theorem row_one (D : List H) (l a : ℕ) : row D l a 1 = [subtree D l a] := rfl

theorem row_cons (D : List H) (l a c : ℕ) :
    row D l a (c + 1) = subtree D l a :: row D l (a + 1) c := rfl

/-- A slice of a list that holds subtree hashes at the right places is a row. -/
theorem row_of_getElem {D nodes : List H} {l a o c : ℕ}
    (h : ∀ j, j < o + c → nodes[j]? = some (subtree D l (a + j))) :
    (nodes.drop o).take c = row D l (a + o) c := by
  apply List.ext_getElem?
  intro j
  by_cases hj : j < c
  · rw [List.getElem?_take_of_lt hj, List.getElem?_drop, h _ (by omega), row, List.getElem?_map,
      List.getElem?_range' hj, Option.map_some, one_mul, Nat.add_assoc]
  · rw [List.getElem?_take, if_neg hj, List.getElem?_eq_none (by rw [length_row]; omega)]

end Siglog.Rfc
