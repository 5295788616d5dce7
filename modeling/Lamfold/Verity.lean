import Lamfold.Substrate
import Lamfold.HashTree

/-!
The native fs-verity Merkle tree over SHA-256: the measurement of a file, and
the verifier that checks each block of a read against a trusted leaf layer.
The hash itself is a parameter. The level loop has no counter in the source; here
it gets 64 rounds more than the data has bytes, and running out of them stands
for a loop that never ends.
-/
namespace Lamfold.Verity

open Effects Bytes

abbrev Sha256Digest := { d : List UInt8 // d.length = 32 }

abbrev Sha256 := List UInt8 → Sha256Digest

def hashLen : ℕ := 32

/-- The salt is padded to a multiple of this. -/
def sha256InputBlock : ℕ := 64

theorem zeroDigest_length : (List.replicate hashLen (0 : UInt8)).length = 32 :=
  List.length_replicate

def zeroDigest : Sha256Digest := ⟨List.replicate hashLen 0, zeroDigest_length⟩

/-- `1usize << block_log`. -/
def shiftOne (blockLog : UInt8) : Outcome ℕ :=
  if blockLog.toNat < 64 then .ok (2 ^ blockLog.toNat) else .error .panic

theorem shiftOne_eq_ok {blockLog : UInt8} {bs : ℕ} :
    shiftOne blockLog = .ok bs ↔ blockLog.toNat < 64 ∧ 2 ^ blockLog.toNat = bs := by
  unfold shiftOne
  by_cases h : blockLog.toNat < 64 <;> simp [h]

theorem shiftOne_pos {blockLog : UInt8} {bs : ℕ} (h : shiftOne blockLog = .ok bs) : 0 < bs := by
  obtain ⟨-, rfl⟩ := shiftOne_eq_ok.mp h
  exact Nat.two_pow_pos _

/-- The salt padded to the hash's input block; no salt, no prefix. -/
def paddedSalt (salt : List UInt8) : List UInt8 :=
  if salt = [] then []
  else
    let rem := salt.length % sha256InputBlock
    if rem ≠ 0 then salt ++ List.replicate (sha256InputBlock - rem) 0 else salt

/-- The zeros fed to the hasher after a short block, 64 at a time. -/
def zeroFill (pad : ℕ) : List UInt8 :=
  if 0 < pad then
    let n := min pad sha256InputBlock
    List.replicate n 0 ++ zeroFill (pad - n)
  else []
  termination_by pad
  decreasing_by simp only [sha256InputBlock]; omega

/-- `salt_prefix || block`, zero-padded up to the block size. -/
def hashBlock (sha256 : Sha256) (saltPrefix block : List UInt8) (bs : ℕ) :
    Outcome Sha256Digest := do
  let pad ← minus bs block.length
  pure (sha256 (saltPrefix ++ block ++ zeroFill pad))

/-- `&level[i * bs..min(i * bs + bs, level.len())]`. -/
def levelBlock (level : List UInt8) (bs i : ℕ) : List UInt8 :=
  let start := i * bs
  let stop := min (start + bs) level.length
  (level.drop start).take (stop - start)

def merkleLoop (sha256 : Sha256) (bs : ℕ) (saltPrefix : List UInt8) :
    ℕ → List UInt8 → Outcome Sha256Digest
  | 0, _ => .error .hang
  | rounds + 1, level =>
    let nblocks := divCeil level.length bs
    if nblocks ≤ 1 then hashBlock sha256 saltPrefix level bs
    else do
      let capacity ← u64 (nblocks * hashLen)
      withCapacity 1 capacity
      let next ← (List.range nblocks).mapM
        fun i => hashBlock sha256 saltPrefix (levelBlock level bs i) bs
      merkleLoop sha256 bs saltPrefix rounds (next.flatMap Subtype.val)

/-- Levels that shrink do so at most as often as the data has bytes, and levels that double
reach the largest capacity in 63 rounds. -/
def maxRounds (data : List UInt8) : ℕ := data.length + 64

/-- An empty file has an all-zero root by definition. -/
def merkleRoot (sha256 : Sha256) (data : List UInt8) (bs : ℕ) (saltPrefix : List UInt8) :
    Outcome Sha256Digest :=
  if data = [] then .ok zeroDigest
  else merkleLoop sha256 bs saltPrefix (maxRounds data) data

/-- `struct fsverity_descriptor`, 256 bytes. -/
def descriptor (data : List UInt8) (blockLog : UInt8) (root : Sha256Digest)
    (salt : List UInt8) : List UInt8 :=
  let sl := min salt.length 32
  [1, 1, blockLog, UInt8.ofNat salt.length] ++ List.replicate 4 0 ++
    leBytes 8 data.length ++ root.val ++ List.replicate 32 0 ++
    (salt.take sl ++ List.replicate (32 - sl) 0) ++ List.replicate 144 0

/-- The file measurement. -/
def fsverityDigestSha256 (sha256 : Sha256) (data : List UInt8) (blockLog : UInt8)
    (salt : List UInt8) : Outcome Sha256Digest := do
  let bs ← shiftOne blockLog
  let root ← merkleRoot sha256 data bs (paddedSalt salt)
  pure (sha256 (descriptor data blockLog root salt))

/-- A verifier over one trusted file's content. -/
structure MerkleVerifier where
  blockSize : ℕ
  saltPrefix : List UInt8
  leaves : List Sha256Digest
  measurement : Sha256Digest

namespace MerkleVerifier

/-- The loop of `over` that pushes a leaf for every `block_size` bytes. -/
def leafLoop (sha256 : Sha256) (data saltPrefix : List UInt8) (bs : ℕ) (hbs : 0 < bs) (i : ℕ) :
    Outcome (List Sha256Digest) :=
  if i < data.length then do
    let stop := min (i + bs) data.length
    let leaf ← hashBlock sha256 saltPrefix ((data.drop i).take (stop - i)) bs
    let rest ← leafLoop sha256 data saltPrefix bs hbs (i + bs)
    pure (leaf :: rest)
  else pure []
  termination_by data.length - i

/-- Build a verifier over the genuine content. -/
def «over» (sha256 : Sha256) (data : List UInt8) (blockLog : UInt8) (salt : List UInt8) :
    Outcome MerkleVerifier :=
  match h : shiftOne blockLog with
  | .error e => .error e
  | .ok blockSize => do
    let saltPrefix := paddedSalt salt
    withCapacity hashLen (divCeil data.length blockSize)
    let leaves ← leafLoop sha256 data saltPrefix blockSize (shiftOne_pos h) 0
    let measurement ← fsverityDigestSha256 sha256 data blockLog salt
    pure ⟨blockSize, saltPrefix, leaves, measurement⟩

/-- Check one block as it is read; the node is not looked at. -/
def verifyBlock (sha256 : Sha256) (v : MerkleVerifier) : Verifier := fun _node offset data =>
  if offset % v.blockSize ≠ 0 then fail (.verifyFailed "unaligned verify offset")
  else do
    let idx := offset / v.blockSize
    let want ← okOr v.leaves[idx]? (.verifyFailed "block past Merkle tree")
    let got ← hashBlock sha256 v.saltPrefix data v.blockSize
    if got = want then .ok () else fail (.verifyFailed "block hash mismatch")

end MerkleVerifier

end Lamfold.Verity
