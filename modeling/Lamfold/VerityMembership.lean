import Lamfold.VerityBlocks

/-!
What the block verifier decides: whether the data it is given is the block of the genuine
content that starts at the offset. Data longer than a block is not refused: it makes the
padding of the hashed block negative.
-/
namespace Lamfold.Verity

open Effects Bytes HashTree

/-- A block, zero-padded up to the block size. -/
def zeroPadded (bs : ℕ) (block : List UInt8) : List UInt8 :=
  block ++ List.replicate (bs - block.length) 0

/-- The data is, up to its padding, the block of the content that starts at the offset. -/
def IsBlockOf (content : List UInt8) (bs offset : ℕ) (data : List UInt8) : Prop :=
  ∃ i, offset = i * bs ∧ i * bs < content.length ∧ data.length ≤ bs ∧
    zeroPadded bs data = zeroPadded bs (levelBlock content bs i)

/-- The data is accepted when it is the block there, and refused when it is not. -/
structure DecidesMembership (content : List UInt8) (bs offset : ℕ) (data : List UInt8)
    (r : Outcome Unit) : Prop where
  accepts : r = .ok () ↔ IsBlockOf content bs offset data
  refuses : ¬IsBlockOf content bs offset data → ∃ what, r = fail (.verifyFailed what)

theorem blockInput_eq_zeroPadded (saltPrefix : List UInt8) (bs : ℕ) (block : List UInt8) :
    blockInput saltPrefix bs block = saltPrefix ++ zeroPadded bs block := List.append_assoc ..

/-- Blocks that are hashed as the same string are the same up to their padding. -/
theorem zeroPadded_eq_iff (saltPrefix : List UInt8) {bs : ℕ} {block block' : List UInt8} :
    zeroPadded bs block = zeroPadded bs block' ↔
      blockInput saltPrefix bs block = blockInput saltPrefix bs block' := by
  rw [blockInput_eq_zeroPadded, blockInput_eq_zeroPadded, List.append_cancel_left_eq]

namespace MerkleVerifier

section Verify

variable {sha256 : Sha256} {v : MerkleVerifier} {content salt : List UInt8} {blockLog : UInt8}
  {node : NodeId} {offset : ℕ} {data : List UInt8}

theorem verifyBlock_unaligned (h : offset % v.blockSize ≠ 0) :
    verifyBlock sha256 v node offset data = fail (.verifyFailed "unaligned verify offset") :=
  if_pos h

theorem verifyBlock_past (halign : offset % v.blockSize = 0)
    (hleaf : v.leaves[offset / v.blockSize]? = none) :
    verifyBlock sha256 v node offset data = fail (.verifyFailed "block past Merkle tree") := by
  unfold verifyBlock
  rw [if_neg (not_not.mpr halign)]
  dsimp only
  rw [hleaf]
  rfl

theorem verifyBlock_long {want : Sha256Digest} (halign : offset % v.blockSize = 0)
    (hleaf : v.leaves[offset / v.blockSize]? = some want) (hlong : v.blockSize < data.length) :
    verifyBlock sha256 v node offset data = .error .panic := by
  unfold verifyBlock
  rw [if_neg (not_not.mpr halign)]
  dsimp only
  rw [hleaf, okOr, ok_bind, hashBlock_of_lt sha256 _ hlong]
  rfl

theorem verifyBlock_short {want : Sha256Digest} (halign : offset % v.blockSize = 0)
    (hleaf : v.leaves[offset / v.blockSize]? = some want) (hlen : data.length ≤ v.blockSize) :
    verifyBlock sha256 v node offset data =
      if sha256 (blockInput v.saltPrefix v.blockSize data) = want then .ok ()
      else fail (.verifyFailed "block hash mismatch") := by
  unfold verifyBlock
  rw [if_neg (not_not.mpr halign)]
  dsimp only
  rw [hleaf, okOr, ok_bind, hashBlock_of_le sha256 _ hlen, ok_bind]

/-- There is a leaf for every block inside the content. -/
theorem Trusts.leaf_iff (hv : v.Trusts sha256 content blockLog salt)
    (halign : offset % v.blockSize = 0) :
    (∃ want, v.leaves[offset / v.blockSize]? = some want) ↔ offset < content.length := by
  have hpos := hv.blockSize_pos
  have hoffset : offset / v.blockSize * v.blockSize = offset :=
    Nat.div_mul_cancel (Nat.dvd_of_mod_eq_zero halign)
  have hlength : v.leaves.length = divCeil content.length v.blockSize := by
    rw [hv.leaves_eq, List.length_map, treeScheme_blocks_length]
  rw [← hoffset, ← lt_divCeil_iff hpos, ← hlength, Nat.mul_div_cancel _ hpos]
  constructor
  · rintro ⟨want, h⟩
    exact (List.getElem?_eq_some_iff.mp h).1
  · intro h
    exact ⟨_, List.getElem?_eq_getElem h⟩

/-- What does not verify is refused, unless it is longer than a block at the start of a
block inside the content. -/
theorem Trusts.verifyBlock_refuses_iff (hv : v.Trusts sha256 content blockLog salt)
    (hbad : verifyBlock sha256 v node offset data ≠ .ok ()) :
    (∃ what, verifyBlock sha256 v node offset data = fail (.verifyFailed what)) ↔
      data.length ≤ v.blockSize ∨ offset % v.blockSize ≠ 0 ∨ content.length ≤ offset := by
  by_cases halign : offset % v.blockSize = 0
  · rcases Nat.lt_or_ge offset content.length with hin | hpast
    · obtain ⟨want, hleaf⟩ := (hv.leaf_iff halign).mpr hin
      rcases Nat.lt_or_ge v.blockSize data.length with hlong | hlen
      · rw [verifyBlock_long halign hleaf hlong]
        refine iff_of_false ?_ (by omega)
        rintro ⟨what, h⟩
        cases h
      · refine iff_of_true ?_ (.inl hlen)
        rw [verifyBlock_short halign hleaf hlen] at hbad ⊢
        split at hbad
        · exact absurd rfl hbad
        · rename_i hmismatch
          exact ⟨_, if_neg hmismatch⟩
    · have hleaf : v.leaves[offset / v.blockSize]? = none := by
        rw [Option.eq_none_iff_forall_ne_some]
        intro want hwant
        exact absurd ((hv.leaf_iff halign).mp ⟨want, hwant⟩) (Nat.not_lt_of_le hpast)
      exact iff_of_true ⟨_, verifyBlock_past halign hleaf⟩ (.inr (.inr hpast))
  · exact iff_of_true ⟨_, verifyBlock_unaligned halign⟩ (.inr (.inl halign))

/-- Without a collision, what is accepted is the block of the content at the offset. -/
theorem Trusts.verifyBlock_accepts_iff (hv : v.Trusts sha256 content blockLog salt)
    (hcollision : ¬Collision sha256 [blockInput v.saltPrefix v.blockSize data]
      ((treeScheme v.saltPrefix v.blockSize).blocks content)) :
    verifyBlock sha256 v node offset data = .ok () ↔
      IsBlockOf content v.blockSize offset data := by
  constructor
  · intro h
    have halign := (verifyBlock_eq_ok.mp h).1
    have hoffset : offset = offset / v.blockSize * v.blockSize :=
      (Nat.div_mul_cancel (Nat.dvd_of_mod_eq_zero halign)).symm
    rw [hoffset] at h
    obtain ⟨hlen, hin, hhash⟩ := hv.verifyBlock_iff.mp h
    refine ⟨offset / v.blockSize, hoffset, hin, hlen, ?_⟩
    rw [zeroPadded_eq_iff v.saltPrefix]
    by_contra hne
    refine hcollision ⟨_, List.mem_singleton_self _, _, ?_, hne, hhash⟩
    exact List.mem_map.mpr ⟨offset / v.blockSize,
      List.mem_range.mpr ((lt_divCeil_iff hv.blockSize_pos).mpr hin), rfl⟩
  · rintro ⟨i, rfl, hin, hlen, hpad⟩
    rw [zeroPadded_eq_iff v.saltPrefix] at hpad
    exact hv.verifyBlock_iff.mpr ⟨hlen, hin, congrArg sha256 hpad⟩

end Verify

end MerkleVerifier

/-- The verifier of any content decides membership, unless the data is longer than a block
and the offset is the start of a block inside the content. -/
theorem verifyBlock_decides_iff (sha256 : Sha256) (content : Slice) (blockLog : UInt8)
    (salt : List UInt8) (node : NodeId) (offset : ℕ) (data : List UInt8)
    (h6 : 6 ≤ blockLog.toNat) (h64 : blockLog.toNat < 64)
    (hcollision : ¬Collision sha256
      [blockInput (paddedSalt salt) (2 ^ blockLog.toNat) data]
      ((treeScheme (paddedSalt salt) (2 ^ blockLog.toNat)).blocks content.val)) :
    ∃ v, MerkleVerifier.over sha256 content.val blockLog salt = .ok v ∧
      (DecidesMembership content.val (2 ^ blockLog.toNat) offset data
          (v.verifyBlock sha256 node offset data) ↔
        data.length ≤ 2 ^ blockLog.toNat ∨ offset % 2 ^ blockLog.toNat ≠ 0 ∨
          content.val.length ≤ offset) := by
  obtain ⟨v, hover⟩ := MerkleVerifier.over_total sha256 content salt h6 h64
  have hv := MerkleVerifier.over_trusts hover
  refine ⟨v, hover, ?_⟩
  rw [← hv.blockSize_eq, ← hv.saltPrefix_eq] at hcollision
  rw [← hv.blockSize_eq]
  have haccepts : v.verifyBlock sha256 node offset data = .ok () ↔
      IsBlockOf content.val v.blockSize offset data := hv.verifyBlock_accepts_iff hcollision
  constructor
  · intro hdecides
    by_cases hblock : IsBlockOf content.val v.blockSize offset data
    · obtain ⟨i, -, -, hlen, -⟩ := hblock
      exact .inl hlen
    · have hbad := fun hok => hblock (haccepts.mp hok)
      exact (hv.verifyBlock_refuses_iff hbad).mp (hdecides.refuses hblock)
  · intro hcond
    refine ⟨haccepts, fun hblock => ?_⟩
    have hbad := fun hok => hblock (haccepts.mp hok)
    exact (hv.verifyBlock_refuses_iff hbad).mpr hcond

/-- SHA-256 on the block and the descriptor hashed for the file `a` with blocks of 64 bytes,
and on 65 zeros. -/
def letterSha256 : Sha256 := fun bytes =>
  if bytes = 0x61 :: List.replicate 63 0 then
    ⟨[0x2b, 0x75, 0x14, 0x8d, 0xdf, 0x52, 0xe1, 0x31, 0x89, 0x92, 0xb8, 0xb7, 0xd0, 0x26, 0x47,
      0xf5, 0x61, 0x4a, 0xd2, 0x8e, 0xfd, 0x81, 0x95, 0x9c, 0xda, 0x46, 0xc4, 0xdd, 0x5a, 0x40,
      0x24, 0x18], rfl⟩
  else if bytes = List.replicate 65 0 then
    ⟨[0x98, 0xce, 0x42, 0xde, 0xef, 0x51, 0xd4, 0x02, 0x69, 0xd5, 0x42, 0xf5, 0x31, 0x4b, 0xef,
      0x2c, 0x74, 0x68, 0xd4, 0x01, 0xad, 0x5d, 0x85, 0x16, 0x8b, 0xfa, 0xb4, 0xc0, 0x10, 0x8f,
      0x75, 0xf7], rfl⟩
  else
    ⟨[0x5e, 0xb1, 0xda, 0xae, 0xec, 0x1e, 0x03, 0xd4, 0xf2, 0x0a, 0xa5, 0xd6, 0x74, 0xca, 0x48,
      0x65, 0xf3, 0x92, 0x03, 0xa6, 0xef, 0xca, 0x9a, 0xca, 0xb4, 0x3c, 0xa6, 0xb4, 0x72, 0x0c,
      0xe4, 0x6d], rfl⟩

theorem letter_digests : ¬Collision letterSha256
    [blockInput (paddedSalt []) (2 ^ (6 : UInt8).toNat) (List.replicate 65 0)]
    ((treeScheme (paddedSalt []) (2 ^ (6 : UInt8).toNat)).blocks [0x61]) := by
  rintro ⟨x, hx, y, hy, -, heq⟩
  obtain rfl := List.mem_singleton.mp hx
  have hblocks : (treeScheme (paddedSalt []) (2 ^ (6 : UInt8).toNat)).blocks [0x61] =
      [0x61 :: List.replicate 63 0] := by decide
  obtain rfl := List.mem_singleton.mp (hblocks ▸ hy)
  revert heq
  decide

theorem verifyBlock_decides_iff_letter :
    ∃ v, MerkleVerifier.over letterSha256 [0x61] 6 [] = .ok v ∧
      (DecidesMembership [0x61] (2 ^ (6 : UInt8).toNat) 0 (List.replicate 65 0)
          (v.verifyBlock letterSha256 0 0 (List.replicate 65 0)) ↔
        (List.replicate 65 (0 : UInt8)).length ≤ 2 ^ (6 : UInt8).toNat ∨
          0 % 2 ^ (6 : UInt8).toNat ≠ 0 ∨ [(0x61 : UInt8)].length ≤ 0) :=
  verifyBlock_decides_iff letterSha256 ⟨[0x61], by decide⟩ 6 [] 0 0 (List.replicate 65 0) (by decide)
    (by decide) letter_digests

/-- 65 zeros at the start of the file `a`, with blocks of 64 bytes, are not refused: the
verifier panics. -/
theorem verifyBlock_tooLong :
    ¬Collision letterSha256
      [blockInput (paddedSalt []) (2 ^ (6 : UInt8).toNat) (List.replicate 65 0)]
      ((treeScheme (paddedSalt []) (2 ^ (6 : UInt8).toNat)).blocks [0x61]) ∧
    ∃ v, MerkleVerifier.over letterSha256 [0x61] 6 [] = .ok v ∧
      v.verifyBlock letterSha256 0 0 (List.replicate 65 0) = .error .panic ∧
      ¬DecidesMembership [0x61] (2 ^ (6 : UInt8).toNat) 0 (List.replicate 65 0)
        (v.verifyBlock letterSha256 0 0 (List.replicate 65 0)) := by
  refine ⟨letter_digests, ?_⟩
  obtain ⟨v, hover⟩ := @MerkleVerifier.over_total letterSha256 ⟨[0x61], by decide⟩ 6 [] (by decide) (by decide)
  have hv := MerkleVerifier.over_trusts hover
  have halign : 0 % v.blockSize = 0 := Nat.zero_mod _
  obtain ⟨want, hleaf⟩ := (hv.leaf_iff halign).mpr (by decide)
  have hlong : v.blockSize < (List.replicate 65 (0 : UInt8)).length := by
    rw [hv.blockSize_eq]
    decide
  have hpanic := @MerkleVerifier.verifyBlock_long letterSha256 v 0 0 _ want halign hleaf hlong
  refine ⟨v, hover, hpanic, ?_⟩
  intro hdecides
  have hnot : ¬IsBlockOf [0x61] (2 ^ (6 : UInt8).toNat) 0 (List.replicate 65 0) := by
    rintro ⟨i, -, -, hlen, -⟩
    revert hlen
    decide
  obtain ⟨what, hrefused⟩ := hdecides.refuses hnot
  cases hpanic.symm.trans hrefused

end Lamfold.Verity
