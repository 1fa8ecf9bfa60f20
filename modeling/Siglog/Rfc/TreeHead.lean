import Siglog.Rfc.TreeHash

/-! Tree heads: a size with a root hash. One head extends another if whatever list of
leaves the later one stands for, the earlier one stands for its prefix. A chain of
heads, each extending the one before, is all that can be known of a log without
its leaves. -/

namespace Siglog.Rfc

variable {H : Type} [NodeHash H]

abbrev TreeHead (H : Type) := ℕ × H

/-- The head `b` extends the head `a`. -/
structure Extends (a b : TreeHead H) : Prop where
  size_le : a.1 ≤ b.1
  same : a.1 = b.1 → a.2 = b.2
  consistent : ∀ D : List H, D.length = b.1 → b.2 = mth D → a.2 = mth (D.take a.1)

theorem Extends.refl (a : TreeHead H) : Extends a a := by
  refine ⟨le_rfl, fun _ => rfl, fun D hD h => ?_⟩
  rw [List.take_of_length_le hD.le]
  exact h

theorem Extends.trans {a b c : TreeHead H} (h : Extends a b) (h' : Extends b c) : Extends a c := by
  refine ⟨h.size_le.trans h'.size_le, fun hac => ?_, fun D hD hc => ?_⟩
  · have hab : a.1 = b.1 := le_antisymm h.size_le (hac ▸ h'.size_le)
    exact (h.same hab).trans (h'.same (hab ▸ hac))
  · have hb := h'.consistent D hD hc
    have ha := h.consistent (D.take b.1)
      (by rw [List.length_take, hD]; exact Nat.min_eq_left h'.size_le) hb
    rwa [List.take_take, Nat.min_eq_left h.size_le] at ha

/-- Every head extends that of the empty tree, if it is the empty tree's itself when it is empty. -/
theorem extends_empty {b : TreeHead H} (h : b.1 = 0 → b.2 = mth []) : Extends (0, mth []) b :=
  ⟨Nat.zero_le _, fun h0 => (h h0.symm).symm, fun _ _ _ => rfl⟩

/-- Of two heads in a chain the longer one extends the other. -/
theorem extends_of_chain {chain : List (TreeHead H)} (h : chain.Pairwise Extends) {a b : TreeHead H}
    (ha : a ∈ chain) (hb : b ∈ chain) (hab : a.1 ≤ b.1) : Extends a b := by
  obtain ⟨i, hi, rfl⟩ := List.mem_iff_getElem.mp ha
  obtain ⟨j, hj, rfl⟩ := List.mem_iff_getElem.mp hb
  rw [List.pairwise_iff_getElem] at h
  rcases Nat.lt_trichotomy i j with hij | rfl | hij
  · exact h i j hi hj hij
  · exact .refl _
  · -- both have the same size, and so the same root
    have hba := h j i hj hi hij
    have heq := le_antisymm hba.size_le hab
    rw [Prod.ext heq (hba.same heq)]
    exact .refl _

end Siglog.Rfc
