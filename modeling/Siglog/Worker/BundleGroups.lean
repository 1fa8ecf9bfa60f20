import Siglog.Worker.Integration
import Siglog.Storage.DatabaseFacts
import Mathlib.Data.List.Induction

/-! Grouping a batch by bundle. The entries of a batch that fall into one bundle are
a contiguous part of the batch, in order, whatever the boundaries between. -/

namespace Siglog.Worker

open Api (tileWidth tileWidth_eq)
open Rfc (seg)
open Storage (PendingEntry toPending)

variable {H : Type} [Sha256Hash H]

/-- The first index of a bundle that a batch from `n` on reaches. -/
def groupStart (n bundleIdx : ℕ) : ℕ := max (tileWidth * bundleIdx) n

/-- The index behind the last one that a batch up to `stop` reaches in a bundle. -/
def groupStop (stop bundleIdx : ℕ) : ℕ := min (tileWidth * (bundleIdx + 1)) stop

theorem toPending_append (start : ℕ) (a b : List (Entry H)) :
    toPending start (a ++ b) = toPending start a ++ toPending (start + a.length) b := by
  induction a generalizing start with
  | nil => rfl
  | cons entry a ih =>
    simp only [List.cons_append, toPending, ih, List.length_cons]
    congr 3
    omega

theorem map_leafHash_toPending (start : ℕ) (a : List (Entry H)) :
    (toPending start a).map (fun e => e.leafHash) = a.map Entry.leafHash := by
  induction a generalizing start with
  | nil => rfl
  | cons entry a ih => simp only [toPending, List.map_cons, ih]

theorem length_toPending (start : ℕ) (a : List (Entry H)) :
    (toPending start a).length = a.length := by
  rw [← List.length_map (f := fun e => e.leafHash), map_leafHash_toPending, List.length_map]

theorem toPending_eq_nil {start : ℕ} {a : List (Entry H)} : toPending start a = [] ↔ a = [] := by
  cases a <;> simp [toPending]

/-- A batch that starts at the integrated size passes the check. -/
theorem checkContiguous_toPending {start : ℕ} (a : List (Entry H)) :
    checkContiguous start (toPending start a) = .ok () := by
  induction a generalizing start with
  | nil => rfl
  | cons entry a ih =>
    rw [toPending, checkContiguous, if_neg (not_not.mpr rfl)]
    exact ih

/-- The group of a bundle: the data of the part of the batch that falls into it. -/
theorem groupBundles_lookup (data : List Bytes) (n : ℕ) (E : List (Entry H))
    (hE : seg data n E.length = E.map Entry.data) (bundleIdx : ℕ) :
    (groupBundles (toPending n E)).lookup bundleIdx =
      if groupStart n bundleIdx < groupStop (n + E.length) bundleIdx then
        some (seg data (groupStart n bundleIdx)
          (groupStop (n + E.length) bundleIdx - groupStart n bundleIdx))
      else none := by
  induction E using List.reverseRecOn generalizing bundleIdx with
  | nil =>
    rw [if_neg (by unfold groupStart groupStop; rw [List.length_nil]; omega)]
    rfl
  | append_singleton E entry ih =>
    rw [List.length_append, List.length_singleton, Rfc.seg_add, List.map_append] at hE
    have hlen : (seg data n E.length).length = (E.map Entry.data).length := by
      have h := congrArg List.length hE
      rw [List.length_append, List.length_append, List.length_map, List.length_map,
        List.length_singleton] at h
      have h₁ : (seg data (n + E.length) 1).length ≤ 1 := by simp [seg]
      have h₂ : (seg data n E.length).length ≤ E.length := by simp [seg]
      rw [List.length_map]
      omega
    obtain ⟨hold, hnew⟩ := List.append_inj hE hlen
    have ih := ih hold
    have hgroup : groupBundles (toPending n (E ++ [entry])) =
        (groupBundles (toPending n E)).insert ((n + E.length) / tileWidth)
          (((groupBundles (toPending n E)).lookup ((n + E.length) / tileWidth)).getD [] ++
            [entry.data]) := by
      rw [toPending_append, groupBundles, List.foldl_append]
      rfl
    rw [hgroup, List.length_append, List.length_singleton]
    by_cases hb : bundleIdx = (n + E.length) / tileWidth
    · have hstop : groupStop (n + E.length) bundleIdx = n + E.length := by
        subst hb
        unfold groupStop
        rw [tileWidth_eq]
        omega
      have hstop' : groupStop (n + (E.length + 1)) bundleIdx = n + E.length + 1 := by
        subst hb
        unfold groupStop
        rw [tileWidth_eq]
        omega
      have hstart : groupStart n bundleIdx ≤ n + E.length := by
        subst hb
        unfold groupStart
        rw [tileWidth_eq]
        omega
      rw [hstop', if_pos (by omega), ← hb, AList.lookup_insert, ih, hstop]
      congr 1
      rw [show n + E.length + 1 - groupStart n bundleIdx = n + E.length - groupStart n bundleIdx +
        1 by omega,
        Rfc.seg_add, show groupStart n bundleIdx + (n + E.length - groupStart n bundleIdx) = n +
          E.length by omega,
        hnew]
      split_ifs with hlt
      · rfl
      · rw [show n + E.length - groupStart n bundleIdx = 0 by omega]
        rfl
    · rw [AList.lookup_insert_ne hb, ih]
      -- the new entry falls into another bundle
      have hsame : groupStart n bundleIdx < groupStop (n + (E.length + 1)) bundleIdx ∨
          groupStart n bundleIdx < groupStop (n + E.length) bundleIdx →
            groupStop (n + (E.length + 1)) bundleIdx = groupStop (n + E.length) bundleIdx := by
        unfold groupStart groupStop
        rw [tileWidth_eq] at hb ⊢
        omega
      by_cases hlt : groupStart n bundleIdx < groupStop (n + E.length) bundleIdx
      · rw [hsame (.inr hlt)]
      · rw [if_neg hlt, if_neg]
        intro hlt'
        rw [hsame (.inl hlt')] at hlt'
        exact hlt hlt'

end Siglog.Worker
