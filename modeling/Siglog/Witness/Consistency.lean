import Siglog.Witness.Proof

/-! Verification of consistency proofs is exact: for a new root that is the tree
hash of known leaves, the only old root and the only proof it accepts are the
tree hash of the first leaves and the consistency proof of the standard. -/

namespace Siglog.Witness

open Rfc (mth rangeHash seg split subproof combine)

variable {H : Type}

/-! ### The expected length -/

theorem subproofLength_left {m n : ℕ} (hn : 2 ≤ n) (hn' : n ≤ 2 ^ 64) (hne : m ≠ n)
    (hm : m ≤ split n)
    (b : Bool) : subproofLength m n b = (do checkedAdd (← subproofLength m (split n) b) 1) := by
  rw [subproofLength, if_neg hne, if_neg (by omega)]
  split
  · simp_all [largestPowerOf2LessThan_eq hn hn']
  · rename_i k hk
    obtain rfl : split n = k := by simpa [largestPowerOf2LessThan_eq hn hn'] using hk
    rw [if_pos hm]

theorem subproofLength_right {m n : ℕ} (hn : 2 ≤ n) (hn' : n ≤ 2 ^ 64) (hne : m ≠ n)
    (hm : split n < m) :
    ∀ b : Bool, subproofLength m n b =
      (do checkedAdd 1 (← subproofLength (m - split n) (n - split n) false)) := by
  intro b
  have hpos := Rfc.split_pos n
  rw [subproofLength, if_neg hne, if_neg (by omega)]
  split
  · simp_all [largestPowerOf2LessThan_eq hn hn']
  · rename_i k hk
    obtain rfl : split n = k := by simpa [largestPowerOf2LessThan_eq hn hn'] using hk
    rw [if_neg (by omega), if_neg (by omega)]

section

variable [Sha256Hash H] {D : List H}

/-- The recursive count is the length of the recursive proof. -/
theorem subproofLength_eq {a m n : ℕ} (h : a + n ≤ D.length) (hm : 0 < m) (hmn : m ≤ n)
    (hn : n ≤ 2 ^ 63)
    (b : Bool) : subproofLength m n b = .ok (subproof m (seg D a n) b).length := by
  induction n using Nat.strong_induction_on generalizing a m b with
  | h n ih =>
    by_cases he : m = n
    · subst he
      rw [subproofLength, if_pos rfl, Rfc.subproof_seg_self h]
      cases b <;> rfl
    · have hk := Rfc.split_lt (n := n) (by omega)
      have hpos := Rfc.split_pos n
      have hlen := Rfc.subproof_length_le h hm hmn hn b
      by_cases hmk : m ≤ split n
      · rw [subproofLength_left (by omega) (by omega) he hmk,
          ih _ hk (a := a) (by omega) hm hmk (by omega) b]
        rw [Rfc.subproof_seg_left h (by omega) hmk, List.length_append,
          List.length_singleton] at hlen ⊢
        exact checkedAdd_ok (by omega)
      · rw [subproofLength_right (by omega) (by omega) he (by omega),
          @ih _ (show n - split n < n by omega) (a + split n) (m - split n) (by omega) (by omega)
            (by omega)
            (by omega) false]
        rw [Rfc.subproof_seg_right h (by omega) (by omega), List.length_append,
          List.length_singleton] at hlen ⊢
        change checkedAdd 1 (subproof (m - split n) _ false).length = _
        rw [checkedAdd_ok (by omega), Nat.add_comm]

/-- The number of levels above the leaves. -/
theorem treeHeight_eq {n : ℕ} (h : 2 ≤ n) (hn : n ≤ i64Max) :
    treeHeight n = .ok ((n - 1).log2 + 1) := by
  rw [treeHeight]
  split_ifs with hp
  · obtain ⟨l, rfl⟩ := isPowerOfTwo_iff.mp hp
    cases l with
    | zero => simp at h
    | succ l =>
      have hpos := Nat.two_pow_pos l
      have hlog : (2 ^ (l + 1) - 1).log2 = l := by
        rw [Nat.log2_eq_iff (by rw [pow_succ]; omega), pow_succ]
        omega
      rw [trailingZeros_pow, hlog]
  · have hlz := leadingZeros_eq (n := n - 1) (by omega) (by unfold i64Max at hn; omega)
    rw [checkedSub_ok (by omega)]
    change checkedSub 64 (leadingZeros (n - 1)) = _
    rw [checkedSub_ok (by omega)]
    congr 1
    omega

theorem proofLength_eq {m n : ℕ} (hD : D.length = n) (hm : 0 < m) (hmn : m < n) (hn : n ≤ i64Max) :
    proofLength m n = .ok (Rfc.proof m D).length := by
  have hseg : seg D 0 n = D := by rw [← hD, Rfc.seg_zero_length]
  rw [proofLength, if_neg (by omega)]
  by_cases hp : IsPowerOfTwo m
  · obtain ⟨l, rfl⟩ := isPowerOfTwo_iff.mp hp
    have hl : l ≤ (n - 1).log2 :=
      (Nat.pow_le_pow_iff_right (a := 2) (by omega)).mp (Rfc.split_spine hmn)
    have hlen := Rfc.length_subproof_pow (D := D) hD.ge hmn.le
    rw [hseg, if_neg (by omega)] at hlen
    rw [if_pos hp, Rfc.proof, hlen, treeHeight_eq (by have := Nat.two_pow_pos l; omega) hn,
      trailingZeros_pow]
    exact checkedSub_ok (by omega)
  · have := subproofLength_eq (D := D) (a := 0) (n := n) (by omega) hm hmn.le
      (by unfold i64Max at hn; omega) true
    rw [hseg] at this
    rw [if_neg hp, this, Rfc.proof]

/-! ### The walk up the left spine -/

omit [Sha256Hash H] in
theorem next_cases (proof : List H) (idx : ℕ) :
    (∃ x, next proof idx = .ok (x, idx + 1) ∧ proof.drop idx = x :: proof.drop (idx + 1)) ∨
      ∃ e, next proof idx = .error (.err e) ∧ proof.length ≤ idx := by
  unfold next
  by_cases h : idx < proof.length
  · refine .inl ⟨proof[idx], ?_, List.drop_eq_getElem_cons h⟩
    rw [List.getElem?_eq_getElem h]
  · refine .inr ⟨.wrongLength (idx + 1) proof.length, ?_, by omega⟩
    rw [List.getElem?_eq_none (by omega)]

/-- The walk only moves hashes from the proof to the accumulator. -/
theorem climb_foldl {newSize size used : ℕ} {r s : H} {p rest : List H}
    (h : climb newSize size used r p = .ok (s, rest)) :
    rest.foldl hashChildren s = p.foldl hashChildren r := by
  induction p generalizing size used r with
  | nil =>
    rw [climb] at h
    split_ifs at h
    cases h
    rfl
  | cons x p ih =>
    rw [climb] at h
    split_ifs at h
    · rw [checkedMul] at h
      split_ifs at h
      · change (if size * 2 > newSize then _ else _) = _ at h
        split_ifs at h
        · cases h
          rfl
        · exact ih h
      · cases h
    · cases h
      rfl

/-- With sizes in range the walk does not overflow, and it succeeds on a proof
that is long enough to reach the new size. -/
theorem climb_ok {newSize : ℕ} (size used : ℕ) (hn : newSize ≤ i64Max) (r : H) (p : List H)
    (h : newSize ≤ size * 2 ^ p.length) : ∃ x, climb newSize size used r p = .ok x := by
  induction p generalizing size used r with
  | nil =>
    rw [climb, if_neg (by simpa using h)]
    exact ⟨_, rfl⟩
  | cons x p ih =>
    rw [climb]
    split_ifs with hlt
    · rw [checkedMul_ok (by unfold i64Max at hn; omega)]
      change ∃ x, (if size * 2 > newSize then _ else _) = _
      split_ifs with hgt
      · exact ⟨_, rfl⟩
      · refine ih _ _ _ ?_
        rwa [List.length_cons, pow_succ', ← mul_assoc] at h
    · exact ⟨_, rfl⟩

section

variable [DecidableEq H]

/-- With a proof of the right length, the check folds it onto the old root. -/
theorem verifyPowerOf2_eq {l n : ℕ} {r s : H} {p : List H} (hn : n ≤ i64Max)
    (hlen : n ≤ 2 ^ l * 2 ^ p.length) :
    verifyPowerOf2 (2 ^ l) n r s p =
      if p.foldl hashChildren r ≠ s then .error (.err .newRootMismatch) else .ok () := by
  obtain ⟨⟨t, rest⟩, hc⟩ := climb_ok (2 ^ l) 0 hn r p hlen
  rw [← climb_foldl hc, verifyPowerOf2, hc]
  rfl

end

theorem pow_length_proof {l n : ℕ} (hD : D.length = n) (h : 2 ^ l < n) :
    n ≤ 2 ^ l * 2 ^ (Rfc.proof (2 ^ l) D).length := by
  have hlen := Rfc.length_subproof_pow (D := D) hD.ge h.le
  rw [← hD, Rfc.seg_zero_length, hD, if_neg (by omega)] at hlen
  have hl : l ≤ (n - 1).log2 :=
    (Nat.pow_le_pow_iff_right (a := 2) (by omega)).mp (Rfc.split_spine h)
  have hle := Rfc.le_two_mul_split (n := n) (by have := Nat.two_pow_pos l; omega)
  rw [Rfc.split, mul_comm, ← pow_succ] at hle
  rwa [Rfc.proof, hlen, ← pow_add, show l + ((n - 1).log2 + 1 - l) = (n - 1).log2 + 1 by omega]

/-! ### The recursive walk -/

theorem verifySubproof_left {proof : List H} {m n : ℕ} (hn : 2 ≤ n) (hn' : n ≤ 2 ^ 64) (hne : m ≠ n)
    (hm : m ≤ split n) (idx : ℕ) (b : Bool) :
    verifySubproof proof m n idx b = (do
      let ((leftOld, leftNew), idx) ← verifySubproof proof m (split n) idx b
      let (right, idx) ← next proof idx
      .ok ((leftOld, hashChildren leftNew right), idx)) := by
  rw [verifySubproof, if_neg hne, if_neg (by omega)]
  split
  · simp_all [largestPowerOf2LessThan_eq hn hn']
  · rename_i k hk
    obtain rfl : split n = k := by simpa [largestPowerOf2LessThan_eq hn hn'] using hk
    rw [if_pos hm]

theorem verifySubproof_right {proof : List H} {m n : ℕ} (hn : 2 ≤ n) (hn' : n ≤ 2 ^ 64)
    (hne : m ≠ n) (hm : split n < m) (idx : ℕ) (b : Bool) :
    verifySubproof proof m n idx b = (do
      let ((rightOld, rightNew), idx) ← verifySubproof proof (m - split n) (n - split n) idx false
      let (left, idx) ← next proof idx
      .ok ((hashChildren left rightOld, hashChildren left rightNew), idx)) := by
  have hpos := Rfc.split_pos n
  rw [verifySubproof, if_neg hne, if_neg (by omega)]
  split
  · simp_all [largestPowerOf2LessThan_eq hn hn']
  · rename_i k hk
    obtain rfl : split n = k := by simpa [largestPowerOf2LessThan_eq hn hn'] using hk
    rw [if_neg (by omega), if_neg (by omega)]

/-- Sizes in range never make the walk panic. -/
theorem verifySubproof_ne_panic (proof : List H) {m n : ℕ} (hm : 0 < m) (hmn : m ≤ n)
    (hn : n ≤ 2 ^ 64) (idx : ℕ) (b : Bool) : verifySubproof proof m n idx b ≠ .error .panic := by
  induction n using Nat.strong_induction_on generalizing m idx b with
  | h n ih =>
    by_cases he : m = n
    · rw [verifySubproof, if_pos he]
      rcases next_cases proof idx with ⟨x, hx, -⟩ | ⟨e, hx, -⟩
      · cases b <;> simp [hx, bind, Except.bind]
      · cases b <;> simp [hx, bind, Except.bind]
    · have hk := Rfc.split_lt (n := n) (by omega)
      have hpos := Rfc.split_pos n
      by_cases hmk : m ≤ split n
      · rw [verifySubproof_left (by omega) hn he hmk]
        have := ih _ hk hm hmk (by omega) idx b
        generalize verifySubproof proof m (split n) idx b = v at this
        rcases v with f | ⟨⟨o, w⟩, idx'⟩
        · simpa [bind, Except.bind] using this
        · rcases next_cases proof idx' with ⟨x, hx, -⟩ | ⟨e, hx, -⟩ <;> simp [hx, bind, Except.bind]
      · rw [verifySubproof_right (by omega) hn he (by omega)]
        have := @ih _ (show n - split n < n by omega) (m - split n) (by omega) (by omega) (by omega)
          idx false
        generalize verifySubproof proof (m - split n) (n - split n) idx false = v at this
        rcases v with f | ⟨⟨o, w⟩, idx'⟩
        · simpa [bind, Except.bind] using this
        · rcases next_cases proof idx' with ⟨x, hx, -⟩ | ⟨e, hx, -⟩ <;> simp [hx, bind, Except.bind]

/-- On the proof of the standard the walk returns the hashes of the two trees. -/
theorem verifySubproof_complete (pre post : List H) {a m n : ℕ} (h : a + n ≤ D.length) (hm : 0 < m)
    (hmn : m ≤ n) (hn : n ≤ 2 ^ 64) {b : Bool} (hb : b = true → ¬ IsPowerOfTwo m ∧ m < n) :
    verifySubproof (pre ++ subproof m (seg D a n) b ++ post) m n pre.length b =
      .ok ((rangeHash D a m, rangeHash D a n), pre.length + (subproof m (seg D a n) b).length) := by
  induction n using Nat.strong_induction_on generalizing a m b post with
  | h n ih =>
    by_cases he : m = n
    · subst he
      cases b with
      | true => exact absurd (hb rfl).2 (lt_irrefl _)
      | false =>
        rw [verifySubproof, if_pos rfl, Rfc.subproof_seg_self h]
        simp [next, bind, Except.bind]
    · have hk := Rfc.split_lt (n := n) (by omega)
      have hpos := Rfc.split_pos n
      by_cases hmk : m ≤ split n
      · have hb' : b = true → ¬ IsPowerOfTwo m ∧ m < split n := fun hb' =>
          ⟨(hb hb').1, lt_of_le_of_ne hmk (by rintro rfl; exact (hb hb').1 (isPowerOfTwo_pow _))⟩
        have := ih _ hk (rangeHash D (a + split n) (n - split n) :: post) (a := a) (by omega) hm hmk
          (by omega) hb'
        rw [verifySubproof_left (by omega) hn he hmk, Rfc.subproof_seg_left h (by omega) hmk]
        simp only [List.append_assoc, List.singleton_append] at this ⊢
        rw [this, Rfc.rangeHash_split (by omega) h]
        simp [next, bind, Except.bind, combine_eq, Nat.add_assoc]
      · have := @ih _ (show n - split n < n by omega) (rangeHash D a (split n) :: post)
          (a + split n)
          (m - split n) (by omega) (by omega) (by omega) (by omega) false (by simp)
        rw [verifySubproof_right (by omega) hn he (by omega),
          Rfc.subproof_seg_right h (by omega) (by omega)]
        simp only [List.append_assoc, List.singleton_append] at this ⊢
        rw [this, Rfc.rangeHash_split (c := n) (by omega) h,
          Rfc.rangeHash_split (c := m) (by omega) (by omega),
          Rfc.split_eq_of_le (m := m) (n := n) (by omega) (by omega) (by omega)]
        simp [next, bind, Except.bind, combine_eq, Nat.add_assoc]

/-- If the walk reaches the hash of the new tree, it has read exactly the proof
of the standard and computed the hash of the old tree. -/
theorem verifySubproof_sound (hinj : Function.Injective2 (hashChildren (H := H))) {proof : List H}
    {a m n idx idx' : ℕ} {b : Bool} {o : H} (h : a + n ≤ D.length) (hm : 0 < m) (hmn : m ≤ n)
    (hn : n ≤ 2 ^ 64) (hv : verifySubproof proof m n idx b = .ok ((o, rangeHash D a n), idx')) :
    o = rangeHash D a m ∧ proof.drop idx = subproof m (seg D a n) b ++ proof.drop idx' := by
  induction n using Nat.strong_induction_on generalizing a m b o idx' with
  | h n ih =>
    by_cases he : m = n
    · subst he
      rw [verifySubproof, if_pos rfl] at hv
      cases b with
      | true => simp at hv
      | false =>
        rcases next_cases proof idx with ⟨x, hx, hd⟩ | ⟨e, hx, -⟩
        · simp only [hx, bind, Except.bind, Bool.false_eq_true, if_false, Except.ok.injEq,
            Prod.mk.injEq] at hv
          obtain ⟨⟨rfl, hw⟩, rfl⟩ := hv
          rw [Rfc.subproof_seg_self h, hd, hw]
          exact ⟨rfl, rfl⟩
        · simp [hx, bind, Except.bind] at hv
    · have hk := Rfc.split_lt (n := n) (by omega)
      have hpos := Rfc.split_pos n
      rw [Rfc.rangeHash_split (by omega) h] at hv
      by_cases hmk : m ≤ split n
      · rw [verifySubproof_left (by omega) hn he hmk] at hv
        rcases hr : verifySubproof proof m (split n) idx b with f | ⟨⟨o', w'⟩, i⟩
        · simp [hr, bind, Except.bind] at hv
        rcases next_cases proof i with ⟨x, hx, hd⟩ | ⟨e, hx, -⟩
        · simp only [hr, hx, bind, Except.bind, Except.ok.injEq, Prod.mk.injEq] at hv
          obtain ⟨⟨rfl, hw⟩, rfl⟩ := hv
          obtain ⟨rfl, rfl⟩ := hinj hw
          obtain ⟨ho, hp⟩ := ih _ hk (by omega) hm hmk (by omega) hr
          refine ⟨ho, ?_⟩
          rw [hp, hd, Rfc.subproof_seg_left h (by omega) hmk, List.append_assoc,
            List.singleton_append]
        · simp [hr, hx, bind, Except.bind] at hv
      · rw [verifySubproof_right (by omega) hn he (by omega)] at hv
        rcases hr : verifySubproof proof (m - split n) (n - split n) idx
          false with f | ⟨⟨o', w'⟩, i⟩
        · simp [hr, bind, Except.bind] at hv
        rcases next_cases proof i with ⟨x, hx, hd⟩ | ⟨e, hx, -⟩
        · simp only [hr, hx, bind, Except.bind, Except.ok.injEq, Prod.mk.injEq] at hv
          obtain ⟨⟨rfl, hw⟩, rfl⟩ := hv
          obtain ⟨rfl, rfl⟩ := hinj hw
          obtain ⟨rfl, hp⟩ :=
            ih _ (show n - split n < n by omega) (by omega) (by omega) (by omega) (by omega) hr
          refine ⟨?_, ?_⟩
          · rw [Rfc.rangeHash_split (c := m) (by omega) (by omega),
              Rfc.split_eq_of_le (m := m) (n := n) (by omega) (by omega) (by omega)]
            rfl
          · rw [hp, hd, Rfc.subproof_seg_right h (by omega) (by omega), List.append_assoc,
              List.singleton_append]
        · simp [hr, hx, bind, Except.bind] at hv

/-- If the walk starts from the hash of the old leaves, and the leaves after them open to the
hash of the new tree that it computes, then that is the tree hash. -/
theorem verifySubproof_opens (hinj : Function.Injective2 (hashChildren (H := H))) {proof : List H}
    {a m n idx idx' : ℕ} {b : Bool} {w : H} (h : a + n ≤ D.length) (hm : 0 < m) (hmn : m ≤ n)
    (hn : n ≤ 2 ^ 64) (hv : verifySubproof proof m n idx b = .ok ((rangeHash D a m, w), idx'))
    (hopens : Rfc.Opens D a m n w) :
    w = rangeHash D a n := by
  induction n using Nat.strong_induction_on generalizing a m b w idx' with
  | h n ih =>
    by_cases he : m = n
    · subst he
      rw [verifySubproof, if_pos rfl] at hv
      cases b with
      | true => simp at hv
      | false =>
        rcases next_cases proof idx with ⟨x, hx, -⟩ | ⟨e, hx, -⟩
        · simp only [hx, bind, Except.bind, Bool.false_eq_true, if_false, Except.ok.injEq,
            Prod.mk.injEq] at hv
          rw [← hv.1.2, hv.1.1]
        · simp [hx, bind, Except.bind] at hv
    · have hk := Rfc.split_lt (n := n) (by omega)
      have hpos := Rfc.split_pos n
      by_cases hmk : m ≤ split n
      · rw [verifySubproof_left (by omega) hn he hmk] at hv
        rcases hr : verifySubproof proof m (split n) idx b with f | ⟨⟨o', w'⟩, i⟩
        · simp [hr, bind, Except.bind] at hv
        rcases next_cases proof i with ⟨x, hx, -⟩ | ⟨e, hx, -⟩
        · simp only [hr, hx, bind, Except.bind, Except.ok.injEq, Prod.mk.injEq] at hv
          obtain ⟨⟨rfl, rfl⟩, rfl⟩ := hv
          have hleft :=
            ih _ hk (by omega) hm hmk (by omega) hr (Rfc.opens_left hinj (by omega) hopens)
          have hopens' := Rfc.opens_right hinj (by omega) hopens
          rw [Nat.sub_eq_zero_of_le hmk] at hopens'
          have hright := Rfc.rangeHash_of_opens hinj (by omega) (by omega) hopens'
          rw [Rfc.rangeHash_split (by omega) h, combine_eq, hleft, hright]
        · simp [hr, hx, bind, Except.bind] at hv
      · rw [verifySubproof_right (by omega) hn he (by omega)] at hv
        rcases hr : verifySubproof proof (m - split n) (n - split n) idx
          false with f | ⟨⟨o', w'⟩, i⟩
        · simp [hr, bind, Except.bind] at hv
        rcases next_cases proof i with ⟨x, hx, -⟩ | ⟨e, hx, -⟩
        · simp only [hr, hx, bind, Except.bind, Except.ok.injEq, Prod.mk.injEq] at hv
          obtain ⟨⟨ho, rfl⟩, rfl⟩ := hv
          rw [Rfc.rangeHash_split (c := m) (by omega) (by omega),
            Rfc.split_eq_of_le (m := m) (n := n) (by omega) (by omega) (by omega)] at ho
          obtain ⟨rfl, rfl⟩ := hinj ho
          have hright :=
            ih _ (show n - split n < n by omega) (by omega) (by omega) (by omega) (by omega) hr
            (Rfc.opens_right hinj (by omega) hopens)
          rw [Rfc.rangeHash_split (c := n) (by omega) h, combine_eq, hright]
        · simp [hr, hx, bind, Except.bind] at hv

/-! ### The whole check -/

variable [DecidableEq H]

theorem verifyConsistency_mid {m n : ℕ} (hD : D.length = n) (hm : 0 < m) (hmn : m < n)
    (hn : n ≤ i64Max) (r s : H) (p : List H) :
    verifyConsistency m n r s p =
      if p.length ≠
        (Rfc.proof m D).length then .error (.err (.wrongLength (Rfc.proof m D).length p.length))
      else if IsPowerOfTwo m then verifyPowerOf2 m n r s p
      else verifyConsistencyInner m n r s p := by
  rw [verifyConsistency, if_neg (by omega), if_neg (by omega), if_neg (by omega),
    proofLength_eq hD hm hmn hn]
  simp only [verifyConsistencyInner, if_neg (show ¬ m = n by omega)]
  change (if _ then _ else _) = _
  congr 1
  split_ifs <;> rfl

theorem verifyConsistencyInner_eq {m n : ℕ} (hmn : m < n) (hp : ¬ IsPowerOfTwo m) (r s : H)
    (p : List H) :
    verifyConsistencyInner m n r s p =
      match verifySubproof p m n 0 true with
      | .error e => .error e
      | .ok ((o, w), idx) =>
        if idx ≠ p.length then .error (.err (.wrongLength idx p.length))
        else if o ≠ r then .error (.err .oldRootMismatch)
        else if w ≠ s then .error (.err .newRootMismatch)
        else .ok () := by
  rw [verifyConsistencyInner, if_neg (by omega), if_neg hp]
  rcases verifySubproof p m n 0 true with e | ⟨⟨o, w⟩, idx⟩ <;> rfl

/-- No arithmetic of the check leaves its range. -/
theorem verifyConsistency_ne_panic {m n : ℕ} (hn : n ≤ i64Max) (r s : H) (p : List H) :
    verifyConsistency m n r s p ≠ .error .panic := by
  by_cases hm : 0 < m ∧ m < n
  · have hD : (List.replicate n s).length = n := List.length_replicate
    rw [verifyConsistency_mid hD hm.1 hm.2 hn]
    split_ifs with hlen hp
    · simp
    · obtain ⟨l, rfl⟩ := isPowerOfTwo_iff.mp hp
      rw [verifyPowerOf2_eq hn (not_not.mp hlen ▸ pow_length_proof hD hm.2)]
      split_ifs <;> simp
    · rw [verifyConsistencyInner_eq hm.2 hp]
      have := verifySubproof_ne_panic p hm.1 hm.2.le (by unfold i64Max at hn; omega) 0 true
      generalize verifySubproof p m n 0 true = v at this
      rcases v with e | ⟨⟨o, w⟩, idx⟩
      · simpa using this
      · dsimp only
        split_ifs <;> simp
  · rw [verifyConsistency]
    split_ifs
    all_goals first | simp; done | omega

theorem verifyConsistency_complete {m : ℕ} (hm : m ≤ D.length) (hn : D.length ≤ i64Max)
    (hm' : 0 < m) :
    verifyConsistency m D.length (mth (D.take m)) (mth D) (Rfc.proof m D) = .ok () := by
  rcases hm.eq_or_lt with rfl | hmn
  · simp [verifyConsistency]
  · rw [verifyConsistency_mid rfl hm' hmn hn, if_neg (by simp)]
    split_ifs with hp
    · obtain ⟨l, rfl⟩ := isPowerOfTwo_iff.mp hp
      have := Rfc.foldl_subproof (D := D) le_rfl hmn.le
      rw [Rfc.seg_zero_length, Rfc.rangeHash_take, Rfc.rangeHash_full] at this
      rw [verifyPowerOf2_eq hn (pow_length_proof rfl hmn), if_neg]
      exact not_not.mpr this
    · have := verifySubproof_complete (D := D) [] [] (a := 0) (m := m) (n := D.length)
        (b := true) (by omega) hm' hm (by unfold i64Max at hn; omega) (fun _ => ⟨hp, hmn⟩)
      rw [Rfc.seg_zero_length, Rfc.rangeHash_take, Rfc.rangeHash_full, List.nil_append,
        List.append_nil, List.length_nil, Nat.zero_add] at this
      rw [verifyConsistencyInner_eq hmn hp, Rfc.proof, this]
      simp

theorem verifyConsistency_sound (hinj : Function.Injective2 (hashChildren (H := H))) {m : ℕ} {r : H}
    {p : List H} (hn : D.length ≤ i64Max) (h : verifyConsistency m D.length r (mth D) p = .ok ()) :
    m ≤ D.length ∧ r = mth (D.take m) ∧ (0 < m → p = Rfc.proof m D) := by
  by_cases hm : 0 < m ∧ m < D.length
  · refine ⟨hm.2.le, ?_⟩
    rw [verifyConsistency_mid rfl hm.1 hm.2 hn] at h
    split_ifs at h with hlen hp
    · rw [not_not] at hlen
      obtain ⟨l, rfl⟩ := isPowerOfTwo_iff.mp hp
      rw [verifyPowerOf2_eq hn (hlen ▸ pow_length_proof rfl hm.2)] at h
      split_ifs at h with hr
      have := Rfc.foldl_eq_rangeHash (D := D) (r := r) (p := p) hinj le_rfl hm.2.le
        (by rw [Rfc.seg_zero_length, hlen, Rfc.proof])
          (by rw [Rfc.rangeHash_full]; exact not_not.mp hr)
      rw [Rfc.rangeHash_take, Rfc.seg_zero_length] at this
      exact ⟨this.1, fun _ => this.2⟩
    · rw [verifyConsistencyInner_eq hm.2 hp] at h
      rcases hv : verifySubproof p m D.length 0 true with e | ⟨⟨o, w⟩, idx⟩
      · simp [hv] at h
      · rw [hv] at h
        dsimp only at h
        split_ifs at h with hi ho hw
        rw [not_not] at hi ho hw
        rw [hi, ho, hw, ← Rfc.rangeHash_full] at hv
        obtain ⟨hr, hd⟩ := verifySubproof_sound (D := D) hinj (by omega) hm.1 hm.2.le
          (by unfold i64Max at hn; omega) hv
        rw [Rfc.seg_zero_length, List.drop_zero, List.drop_length, List.append_nil] at hd
        rw [Rfc.rangeHash_take] at hr
        exact ⟨hr, fun _ => hd⟩
  · rw [verifyConsistency] at h
    split_ifs at h with h₁ h₂ h₃ h₄ h₅ h₆ h₇
    · subst h₂
      rw [not_not] at h₃ h₄
      exact ⟨le_rfl, by rw [List.take_length, h₄], fun _ => by rw [h₃, Rfc.proof_self]⟩
    · rw [not_not] at h₇
      exact ⟨by omega, by rw [h₅, List.take_zero, mth_empty, h₇], fun h => by omega⟩
    · omega

/-- An old tree whose leaves are known, and leaves that open to the new root: together they
are the leaves of the new tree. -/
theorem verifyConsistency_extend (hinj : Function.Injective2 (hashChildren (H := H))) {m : ℕ}
    {s : H} {p : List H}
    (hm : m ≤ D.length) (hn : D.length ≤ i64Max) (hopens : Rfc.Opens D 0 m D.length s)
    (h : verifyConsistency m D.length (mth (D.take m)) s p = .ok ()) : s = mth D := by
  rw [← Rfc.rangeHash_full]
  by_cases hmid : 0 < m ∧ m < D.length
  · rw [verifyConsistency_mid rfl hmid.1 hmid.2 hn] at h
    split_ifs at h with hlen hp
    · rw [not_not] at hlen
      obtain ⟨l, rfl⟩ := isPowerOfTwo_iff.mp hp
      rw [verifyPowerOf2_eq hn (hlen ▸ pow_length_proof rfl hmid.2), ← Rfc.rangeHash_take] at h
      split_ifs at h with hs
      rw [not_not] at hs
      subst hs
      exact Rfc.foldl_eq_of_opens hinj le_rfl hm (by rw [Rfc.seg_zero_length, hlen, Rfc.proof])
        hopens
    · rw [verifyConsistencyInner_eq hmid.2 hp] at h
      rcases hv : verifySubproof p m D.length 0 true with e | ⟨⟨o, w⟩, idx⟩
      · simp [hv] at h
      · rw [hv] at h
        dsimp only at h
        split_ifs at h with hi ho hw
        rw [not_not] at ho hw
        rw [ho, hw, ← Rfc.rangeHash_take] at hv
        exact verifySubproof_opens hinj (by omega) hmid.1 hm (by unfold i64Max at hn; omega) hv
          hopens
  · rw [verifyConsistency] at h
    split_ifs at h with h₁ h₂ h₃ h₄ h₅
    · rw [not_not] at h₄
      rw [Rfc.rangeHash_full, ← h₄, h₂, List.take_length]
    · subst h₅
      exact Rfc.rangeHash_of_opens hinj (by omega) (by omega) hopens
    · omega

/-- Between two sizes in range the check accepts the tree hash of the first
leaves with the proof of the standard and, the hash of two children being
injective, nothing else. It never overflows. -/
theorem verifyConsistency_exact {m n : ℕ} (hm : 0 < m) (hmn : m < n) (hn : n ≤ i64Max)
    (hD : D.length = n) (oldRoot : H) (p : List H) :
    (oldRoot = mth (D.take m) ∧
      p = Rfc.proof m D → verifyConsistency m n oldRoot (mth D) p = .ok ()) ∧
    (Function.Injective2 (hashChildren (H := H)) →
      verifyConsistency m n oldRoot (mth D) p = .ok () →
      oldRoot = mth (D.take m) ∧ p = Rfc.proof m D) ∧
    ∀ newRoot, verifyConsistency m n oldRoot newRoot p ≠ .error .panic := by
  subst hD
  refine ⟨?_, ?_, fun newRoot => verifyConsistency_ne_panic hn oldRoot newRoot p⟩
  · rintro ⟨rfl, rfl⟩
    exact verifyConsistency_complete hmn.le hn hm
  · intro hinj h
    obtain ⟨-, hr, hp⟩ := verifyConsistency_sound hinj hn h
    exact ⟨hr, hp hm⟩

end

/-- The two directions on a tree of five leaves. -/
theorem verifyConsistency_exact_five :
    let D : List FreeHash := [[1], [2], [3], [4], [5]].map hashLeaf
    verifyConsistency 3 5 (mth (D.take 3)) (mth D) (Rfc.proof 3 D) = .ok () ∧
      verifyConsistency 3 5 (mth (D.take 3)) (mth D) (Rfc.proof 4 D) ≠ .ok () := by
  intro D
  have exact := fun p =>
    verifyConsistency_exact (m := 3) (n := 5) (D := D) (by omega) (by omega) (by decide) rfl
    (mth (D.take 3)) p
  refine ⟨(exact _).1 ⟨rfl, rfl⟩, fun h => ?_⟩
  have hp := ((exact _).2.1 freeHash_injective h).2
  exact absurd (congrArg List.length hp) (by decide +kernel)

end Siglog.Witness
