import Mathlib.Data.List.Basic
import Mathlib.Algebra.Order.Ring.Nat

/-! Programs that read a stream from front to end. A read that succeeds takes a part at the
front and does not look behind it, so the same program fails on every shorter part. -/

namespace Siglog

/-- A program that takes symbols from the front of a stream, or fails on the way. -/
abbrev Reader (σ ε : Type) := ExceptT ε (StateM (List σ))

namespace Reader

variable {σ ε α β : Type}

/-- How a program ends on a stream, and what it leaves of it. -/
def on (p : Reader σ ε α) (s : List σ) : Except ε α × List σ := StateT.run (ExceptT.run p) s

theorem on_pure (a : α) (s : List σ) : on (pure a : Reader σ ε α) s = (.ok a, s) := rfl

theorem on_bind_ok {p : Reader σ ε α} {s rest : List σ} {a : α} (h : on p s = (.ok a, rest))
    (f : α → Reader σ ε β) :
    on (p >>= f) s = on (f a) rest := by
  change (match on p s with | (x, rest) => on (ExceptT.mk (ExceptT.bindCont f x)) rest) = _
  rw [h]
  rfl

theorem on_bind_error {p : Reader σ ε α} {s rest : List σ} {e : ε} (h : on p s = (.error e, rest))
    (f : α → Reader σ ε β) :
    on (p >>= f) s = (.error e, rest) := by
  change (match on p s with | (x, rest) => on (ExceptT.mk (ExceptT.bindCont f x)) rest) = _
  rw [h]
  rfl

/-- `read_exact` into an array of `n` symbols. A stream that is too short is used up. -/
def readExact (n : ℕ) (e : ε) : Reader σ ε { b : List σ // b.length = n } :=
  ExceptT.mk fun s => if h : n ≤ s.length then (.ok ⟨s.take n, List.length_take_of_le h⟩, s.drop n)
  else (.error e, [])

theorem on_readExact {n : ℕ} {e : ε} (b : { b : List σ // b.length = n }) (rest : List σ) :
    on (readExact n e) (b.val ++ rest) = (.ok b, rest) := by
  have hlen : n ≤ (b.val ++ rest).length := by simp [b.property]
  refine (dif_pos hlen).trans ?_
  congr 2
  · exact Subtype.ext (List.take_left' b.property)
  · exact List.drop_left' b.property

/-! ### What a success depends on -/

/-- Every success comes from a part at the front of the stream, whatever follows it. -/
def Local (p : Reader σ ε α) : Prop :=
  ∀ ⦃s a rest⦄, on p s = (.ok a, rest) → ∃ used, s = used ++ rest ∧
    ∀ more, on p (used ++ more) = (.ok a, more)

theorem local_pure (a : α) : Local (pure a : Reader σ ε α) := by
  intro s b rest h
  rw [on_pure] at h
  cases h
  exact ⟨[], rfl, fun more => on_pure a more⟩

theorem local_throw (e : ε) : Local (throw e : Reader σ ε α) := by
  intro s a rest h
  cases h

theorem local_readExact (n : ℕ) (e : ε) : Local (readExact n e : Reader σ ε _) := by
  intro s b rest h
  have hread : (if h : n ≤ s.length then (.ok ⟨s.take n, List.length_take_of_le h⟩, s.drop n)
      else (.error e, [])) =
      ((.ok b, rest) : Except ε { b : List σ // b.length = n } × List σ) := h
  split_ifs at hread with hlen
  · cases hread
    exact ⟨s.take n, (List.take_append_drop n s).symm, fun more => on_readExact ⟨s.take n, _⟩ more⟩
  · cases hread

theorem Local.bind {p : Reader σ ε α} {f : α → Reader σ ε β} (hp : Local p)
    (hf : ∀ a, Local (f a)) : Local (p >>= f) := by
  intro s b rest h
  cases hrun : on p s with
  | mk result mid =>
    cases result with
    | error e =>
      rw [on_bind_error hrun] at h
      cases h
    | ok a =>
      rw [on_bind_ok hrun] at h
      obtain ⟨front, hfront, hagain⟩ := hp hrun
      obtain ⟨back, hback, hagain'⟩ := hf a h
      refine ⟨front ++ back, by rw [hfront, hback, List.append_assoc], fun more => ?_⟩
      rw [List.append_assoc, on_bind_ok (hagain (back ++ more)), hagain' more]

/-- A program that reads a stream to its end fails on every shorter part of it. -/
theorem Local.not_ok {p : Reader σ ε α} (hp : Local p) {s : List σ} {a : α}
    (h : on p s = (.ok a, [])) {n : ℕ}
    (hn : n < s.length) (b : α) (rest : List σ) : on p (s.take n) ≠ (.ok b, rest) := by
  intro hshort
  obtain ⟨used, hused, hagain⟩ := hp hshort
  have hwhole := hagain (rest ++ s.drop n)
  rw [← List.append_assoc, ← hused, List.take_append_drop, h] at hwhole
  have hempty : rest ++ s.drop n = [] := (congrArg Prod.snd hwhole).symm
  have hdrop : s.drop n = [] := (List.append_eq_nil_iff.mp hempty).2
  have := List.drop_eq_nil_iff.mp hdrop
  omega

end Reader

/-! ### Cutting a row of blocks -/

/-- The start of a row of blocks is some whole blocks and a part of the next one. -/
theorem take_flatMap {α σ : Type} (block : α → List σ) (row : List α) (n : ℕ) :
    ∃ k ≤ row.length, ((row.take k).flatMap block).length ≤ n ∧
      (((row.flatMap block).take n = (row.take k).flatMap block ∧ k = row.length) ∨
        ∃ a m, row[k]? = some a ∧ m < (block a).length ∧
          n = ((row.take k).flatMap block).length + m ∧
          (row.flatMap block).take n = (row.take k).flatMap block ++ (block a).take m) := by
  induction row generalizing n with
  | nil => exact ⟨0, le_rfl, by simp, .inl (by simp)⟩
  | cons a row ih =>
    by_cases h : (block a).length ≤ n
    · obtain ⟨k, hk, hlen, hcut⟩ := ih (n - (block a).length)
      have htake : (block a ++ row.flatMap block).take n = block a ++
          (row.flatMap block).take (n - (block a).length) := by
        rw [List.take_append, List.take_of_length_le h]
      refine ⟨k + 1, by simpa using hk, ?_, ?_⟩
      · rw [List.take_succ_cons, List.flatMap_cons, List.length_append]
        omega
      · rw [List.take_succ_cons, List.flatMap_cons, List.flatMap_cons, htake]
        rcases hcut with ⟨hall, rfl⟩ | ⟨b, m, hb, hm, hn, hpart⟩
        · exact .inl ⟨by rw [hall], by simp⟩
        · refine .inr ⟨b, m, by simpa using hb, hm, ?_, by rw [hpart, List.append_assoc]⟩
          rw [List.length_append]
          omega
    · refine ⟨0, by omega, by simp, .inr ⟨a, n, rfl, by omega, by simp, ?_⟩⟩
      rw [List.flatMap_cons, List.take_append_of_le_length (by omega)]
      simp

end Siglog
