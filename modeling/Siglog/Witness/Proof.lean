import Siglog.Types
import Siglog.Rfc.Consistency

/-! Verification of consistency proofs. An old size that is a power of two is
checked by a walk up the left spine, any other by the recursion of `SUBPROOF`.
A formula written on its own gives the expected number of hashes. -/

namespace Siglog.Witness

open Rfc (mth rangeHash seg split)

inductive ProofError where
  | invalidSizes (old new : ℕ)
  | wrongLength (expected actual : ℕ)
  | oldRootMismatch
  | newRootMismatch
  | nonEmptyProofForEqualSize
  | nonEmptyProofForEmptyOld
  | invalidEmptyRoot
  deriving DecidableEq, Repr

def ProofError.display : ProofError → String
  | .invalidSizes old new => s!"old size ({old}) > new size ({new})"
  | .wrongLength expected actual => s!"proof length mismatch: expected {expected}, got {actual}"
  | .oldRootMismatch => "old root mismatch"
  | .newRootMismatch => "new root mismatch"
  | .nonEmptyProofForEqualSize => "non-empty proof for trees of equal size"
  | .nonEmptyProofForEmptyOld => "non-empty proof for empty old tree"
  | .invalidEmptyRoot => "invalid root for empty tree"

variable {H : Type}

def subproofLength (m n : ℕ) (complete : Bool) : Except (Fault ProofError) ℕ :=
  if m = n then .ok (if complete then 0 else 1)
  else if n = 0 then .error .panic -- the call repeats itself without end
  else
    match _h : (largestPowerOf2LessThan n : Except (Fault ProofError) ℕ) with
    | .error e => .error e
    | .ok k =>
      if m ≤ k then do
        checkedAdd (← subproofLength m k complete) 1
      else if k = 0 then .error .panic -- likewise
      else do
        checkedAdd 1 (← subproofLength (m - k) (n - k) false)
termination_by n
decreasing_by
  · exact largestPowerOf2LessThan_lt _h (by omega)
  · omega

def treeHeight (newSize : ℕ) : Except (Fault ProofError) ℕ :=
  if IsPowerOfTwo newSize then .ok (trailingZeros newSize)
  else do checkedSub 64 (leadingZeros (← checkedSub newSize 1))

def proofLength (oldSize newSize : ℕ) : Except (Fault ProofError) ℕ :=
  if oldSize = 0 ∨ oldSize = newSize then .ok 0
  else if IsPowerOfTwo oldSize then do
    checkedSub (← treeHeight newSize) (trailingZeros oldSize)
  else subproofLength oldSize newSize true

/-- The next hash of the proof and the advanced index. -/
def next (proof : List H) (idx : ℕ) : Except (Fault ProofError) (H × ℕ) :=
  match proof[idx]? with
  | none => .error (.err (.wrongLength (idx + 1) proof.length))
  | some hash => .ok (hash, idx + 1)

section

variable [Sha256Hash H]

/-- The hashes of the old and the new tree, and the advanced index. -/
def verifySubproof (proof : List H) (m n idx : ℕ) (complete : Bool) :
    Except (Fault ProofError) ((H × H) × ℕ) :=
  if m = n then
    if complete then .error (.err (.wrongLength (idx + 1) proof.length))
    else do
      let (hash, idx) ← next proof idx
      .ok ((hash, hash), idx)
  else if n = 0 then .error .panic -- the call repeats itself without end
  else
    match _h : (largestPowerOf2LessThan n : Except (Fault ProofError) ℕ) with
    | .error e => .error e
    | .ok k =>
      if m ≤ k then do
        let ((leftOld, leftNew), idx) ← verifySubproof proof m k idx complete
        let (right, idx) ← next proof idx
        .ok ((leftOld, hashChildren leftNew right), idx)
      else if k = 0 then .error .panic -- likewise
      else do
        let ((rightOld, rightNew), idx) ← verifySubproof proof (m - k) (n - k) idx false
        let (left, idx) ← next proof idx
        .ok ((hashChildren left rightOld, hashChildren left rightNew), idx)
termination_by n
decreasing_by
  · exact largestPowerOf2LessThan_lt _h (by omega)
  · omega

/-- The first loop of `verifyPowerOf2`: the hash reached and what is left of the
proof, or the number of hashes used when there are too few. -/
def climb (newSize : ℕ) : ℕ → ℕ → H → List H → Except (Fault ProofError) (H × List H)
  | size, used, sr, [] =>
    if size < newSize then .error (.err (.wrongLength (used + 1) used)) else .ok (sr, [])
  | size, used, sr, sibling :: proof =>
    if size < newSize then do
      let size ← checkedMul size 2
      if size > newSize then .ok (hashChildren sr sibling, proof)
      else climb newSize size (used + 1) (hashChildren sr sibling) proof
    else .ok (sr, sibling :: proof)

variable [DecidableEq H]

def verifyPowerOf2 (oldSize newSize : ℕ) (oldRoot newRoot : H) (proof : List H) :
    Except (Fault ProofError) Unit := do
  let (sr, rest) ← climb newSize oldSize 0 oldRoot proof
  if rest.foldl hashChildren sr ≠ newRoot then .error (.err .newRootMismatch)
  else .ok ()

def verifyConsistencyInner (oldSize newSize : ℕ) (oldRoot newRoot : H) (proof : List H) :
    Except (Fault ProofError) Unit :=
  if oldSize = newSize then
    if proof = [] ∧ oldRoot = newRoot then .ok () else .error (.err .oldRootMismatch)
  else if IsPowerOfTwo oldSize then verifyPowerOf2 oldSize newSize oldRoot newRoot proof
  else do
    let ((computedOld, computedNew), idx) ← verifySubproof proof oldSize newSize 0 true
    if idx ≠ proof.length then .error (.err (.wrongLength idx proof.length))
    else if computedOld ≠ oldRoot then .error (.err .oldRootMismatch)
    else if computedNew ≠ newRoot then .error (.err .newRootMismatch)
    else .ok ()

def verifyConsistency (oldSize newSize : ℕ) (oldRoot newRoot : H) (proof : List H) :
    Except (Fault ProofError) Unit :=
  if oldSize > newSize then .error (.err (.invalidSizes oldSize newSize))
  else if oldSize = newSize then
    if proof ≠ [] then .error (.err .nonEmptyProofForEqualSize)
    else if oldRoot ≠ newRoot then .error (.err .oldRootMismatch)
    else .ok ()
  else if oldSize = 0 then
    if proof ≠ [] then .error (.err .nonEmptyProofForEmptyOld)
    else if oldRoot ≠ emptyRootHash then .error (.err .invalidEmptyRoot)
    else .ok ()
  else do
    let expectedLen ← proofLength oldSize newSize
    if proof.length ≠ expectedLen then .error (.err (.wrongLength expectedLen proof.length))
    else verifyConsistencyInner oldSize newSize oldRoot newRoot proof

end

end Siglog.Witness
