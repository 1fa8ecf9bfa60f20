import Siglog.Checkpoint.Signer
import Siglog.Merkle.ProofCorrect
import Mathlib.Data.List.AList

/-! A client of a remote log. It reads bundles and tiles over HTTP and trusts none of them:
a bundle has to have the number of entries that the tree size tells, and an entry counts
only with an inclusion proof for a checkpoint. Whatever was answered, the audit path of an
accepted entry leads to the root of the checkpoint. -/

namespace Siglog

open Api (Path entriesPath tilePath)
open Concurrent (Prog)
open Merkle (EntryBundle HashTile InclusionVerifier LawfulInclusionVerifier ReadTile
  generateInclusionProof)
open Note (Checkpoint)
open Text (Str)

/-- What a client asks the outside for. -/
inductive ClientOp where
  | build
  | get (url : Str)

abbrev ClientOp.Answer : ClientOp → Type
  | .build => Except String Unit
  | .get _ => Except String Bytes

/-- A program of a client. -/
abbrev Client (α : Type) := Prog ClientOp ClientOp.Answer (Fault Error) α

/-- A client and the tiles that it has read. -/
structure LogClient (H : Type) where
  url : Str
  tiles : AList fun _ : Path => HashTile H

/-- The whole body of a response, if it is not too long. -/
def boundedBody (body : Bytes) (limit : ℕ) : Except Error Bytes :=
  if limit < body.length then .error (.invalidEntry "HTTP response exceeds size limit")
  else .ok body

namespace LogClient

variable {H : Type}

def new (url : Str) : Client (LogClient H) := do
  match ← Prog.call ClientOp.build with
  | .error e => .fail (.err (.config e))
  | .ok () => .pure ⟨(url.reverse.dropWhile (· = '/')).reverse, ∅⟩

def read (client : LogClient H) (path : Path) (limit : ℕ) : Client Bytes := do
  match ← Prog.call (ClientOp.get (client.url ++ '/' :: path)) with
  | .error e => .fail (.err (.invalidEntry e))
  | .ok body => (Prog.ofExcept (boundedBody body limit)).mapErr Fault.err

/-- The number of entries of a bundle of a tree. -/
def bundleCount (index treeSize : ℕ) : ℕ := min (treeSize - index * 256) 256

/-- Fetch a complete bundle at the checkpoint's fixed size. -/
def bundle (client : LogClient H) (index treeSize : ℕ) : Client EntryBundle :=
  if treeSize > i64Max ∨
    index ≥ (treeSize + 255) / 256 then .fail (.err (.invalidEntry "bundle outside checkpoint"))
  else do
    let count := bundleCount index treeSize
    let data ← client.read (entriesPath index (count % 256)) (count * (65535 + 2))
    let bundle ← Prog.ofExcept (EntryBundle.fromBytes data)
    if bundle.entries.length ≠ count then .fail (.err (.invalidEntry "incomplete entry bundle"))
    else .pure bundle

variable [Sha256Hash H]

/-- Read a tile, or take it from those that have been read. Older tiles have rows above the
bottom one, which are not looked at. -/
def readTile (client : LogClient H) : (o : ReadTile) → Client (o.Answer H × LogClient H)
  | ⟨level, index, part⟩ => do
    let path := tilePath level index part
    match client.tiles.lookup path with
    | some tile => .pure (some tile, client)
    | none => do
      let count := if part = 0 then 256 else part
      let data ← client.read path (511 * 32)
      if data.length < count * 32 ∨
        data.length % 32 ≠ 0 then .fail (.err (.invalidEntry "incomplete hash tile"))
      else do
        let tile ← Prog.ofExcept (HashTile.fromBytes (data.take (count * 32)))
        let cache := if client.tiles.entries.length ≥ 256 then ∅ else client.tiles
        .pure (some tile, { client with tiles := cache.insert path tile })

variable [InclusionVerifier H]

def verifyEntry (client : LogClient H) (data : Bytes) (index : ℕ) (checkpoint : Checkpoint H) :
    Client (LogClient H) :=
  if checkpoint.size > i64Max then .fail (.err (.invalidEntry "tree too large"))
  else do
    let (proof, client) ←
        (generateInclusionProof index checkpoint.size).translateWith readTile client
    match InclusionVerifier.verifyInclusionProof (hashLeaf data) index checkpoint.size proof
      checkpoint.rootHash with
    | .error e => .fail (.err (.merkle e))
    | .ok () => .pure client

/-! ### What is known of what it returns -/

omit [Sha256Hash H] [InclusionVerifier H] in
/-- A bundle that is returned is complete. -/
theorem bundle_returns (client : LogClient H) (index treeSize : ℕ) :
    (client.bundle index treeSize).Returns
    (fun _ _ => True) fun x => ∀ bundle, x = .ok bundle →
    bundle.entries.length = bundleCount index treeSize := by
  rw [bundle]
  split_ifs
  · rintro _ ⟨⟩
  · refine Prog.returns_bind_any (P := fun _ => True) (Prog.returns_any _ fun _ _ _ => trivial)
      (by simp) fun data _ => ?_
    refine Prog.returns_bind_any (P := fun _ => True) (Prog.returns_any _ fun _ _ _ => trivial)
      (by simp) fun bundle _ => ?_
    split_ifs with hlen
    · rintro _ ⟨⟩
    · rintro _ ⟨⟩
      exact not_not.mp hlen

/-- An entry that is accepted is in the tree of the checkpoint. -/
theorem verifyEntry_returns [LawfulInclusionVerifier H] (client : LogClient H) (data : Bytes)
    (index : ℕ) (checkpoint : Checkpoint H) :
    (client.verifyEntry data index checkpoint).Returns (fun _ _ => True)
      fun x => ∀ client, x = .ok client →
        ∃ proof, Rfc.VerifyInclusion (hashLeaf data) index checkpoint.size proof
          checkpoint.rootHash := by
  rw [verifyEntry]
  split_ifs
  · rintro _ ⟨⟩
  · refine Prog.returns_bind_any (P := fun _ => True) (Prog.returns_any _ fun _ _ _ => trivial)
      (by simp) ?_
    rintro ⟨proof, client⟩ -
    dsimp only
    cases hverify : InclusionVerifier.verifyInclusionProof (hashLeaf data) index checkpoint.size
      proof checkpoint.rootHash with
    | error e => rintro _ ⟨⟩
    | ok u => exact fun _ _ => ⟨proof, (LawfulInclusionVerifier.verify_iff _ _ _ _ _).mp hverify⟩

end LogClient

end Siglog
