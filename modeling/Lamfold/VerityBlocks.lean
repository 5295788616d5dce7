import Lamfold.VerityTree

/-!
Block verification agrees with the measurement. The leaf loop of the verifier
and the first level of the measurement hash the same blocks, so a file whose
blocks are all accepted has the measurement of the genuine content.
-/
namespace Lamfold.Verity

open Effects Bytes HashTree

namespace MerkleVerifier

theorem leafLoop_eq (sha256 : Sha256) (data saltPrefix : List UInt8) {bs : ℕ} (hbs : 0 < bs)
    (k : ℕ) :
    leafLoop sha256 data saltPrefix bs hbs (k * bs) =
      .ok ((List.range' k (divCeil data.length bs - k)).map
        fun i => sha256 (blockInput saltPrefix bs (levelBlock data bs i))) := by
  induction hn : divCeil data.length bs - k generalizing k with
  | zero =>
    have hstop : ¬ k * bs < data.length := by
      rw [← lt_divCeil_iff hbs]
      omega
    rw [leafLoop, if_neg hstop]
    rfl
  | succ n ih =>
    have hmore : k * bs < data.length := by
      rw [← lt_divCeil_iff hbs]
      omega
    have hrest := ih (k + 1) (by omega)
    rw [Nat.succ_mul] at hrest
    have hleaf := hashBlock_of_le sha256 saltPrefix (levelBlock_length_le data bs k)
    rw [leafLoop, if_pos hmore]
    simp only [levelBlock] at hleaf ⊢
    rw [hleaf, ok_bind, hrest, ok_bind]
    rfl

/-- What a built verifier holds: the digests of the content's blocks and the
content's measurement. -/
structure Trusts (sha256 : Sha256) (v : MerkleVerifier) (content : List UInt8)
    (blockLog : UInt8) (salt : List UInt8) : Prop where
  blockSize_eq : v.blockSize = 2 ^ blockLog.toNat
  saltPrefix_eq : v.saltPrefix = paddedSalt salt
  leaves_eq : v.leaves = ((treeScheme v.saltPrefix v.blockSize).blocks content).map sha256
  measurement_eq : fsverityDigestSha256 sha256 content blockLog salt = .ok v.measurement

/-- The leaves of any slice have room in a vector, with blocks of at least two digests. -/
theorem leaves_lt (content : Slice) {bs : ℕ} (hbs : 64 ≤ bs) :
    divCeil content.val.length bs * hashLen < 2 ^ 63 := by
  have hsize := content.property
  by_contra hlarge
  unfold hashLen at hlarge
  have hlast := (lt_divCeil_iff (by omega : 0 < bs)).mp
    (by omega : 2 ^ 58 - 1 < divCeil content.val.length bs)
  have hmono := Nat.mul_le_mul_left (2 ^ 58 - 1) hbs
  omega

theorem over_trusts {sha256 : Sha256} {content salt : List UInt8} {blockLog : UInt8}
    {v : MerkleVerifier} (h : MerkleVerifier.over sha256 content blockLog salt = .ok v) :
    v.Trusts sha256 content blockLog salt := by
  unfold MerkleVerifier.over at h
  split at h
  · cases h
  · rename_i bs hbs
    obtain ⟨-, -, h⟩ := bind_eq_ok.mp h
    obtain ⟨leaves, hleaves, h⟩ := bind_eq_ok.mp h
    obtain ⟨m, hm, h⟩ := bind_eq_ok.mp h
    obtain rfl := Except.ok.inj h
    have hloop := leafLoop_eq sha256 content (paddedSalt salt) (shiftOne_pos hbs) 0
    rw [Nat.zero_mul, hleaves] at hloop
    refine ⟨(shiftOne_eq_ok.mp hbs).2.symm, rfl, ?_, hm⟩
    have hleaf := Except.ok.inj hloop
    simpa only [treeScheme, List.map_map, List.range_eq_range', Nat.sub_zero, Function.comp_def]
      using hleaf

theorem over_total (sha256 : Sha256) (content : Slice) {blockLog : UInt8}
    (salt : List UInt8) (h6 : 6 ≤ blockLog.toNat) (h64 : blockLog.toNat < 64) :
    ∃ v, MerkleVerifier.over sha256 content.val blockLog salt = .ok v := by
  have hbs := shiftOne_eq_ok.mpr ⟨h64, rfl⟩
  have hloop := leafLoop_eq sha256 content.val (paddedSalt salt) (shiftOne_pos hbs) 0
  rw [Nat.zero_mul] at hloop
  obtain ⟨m, hm⟩ := fsverityDigestSha256_total sha256 content salt h6 h64
  have hcapacity : withCapacity hashLen (divCeil content.val.length (2 ^ blockLog.toNat)) = .ok () :=
    if_pos (leaves_lt content (blockSize_ge h6))
  unfold MerkleVerifier.over
  split
  · rename_i e he
    rw [hbs] at he
    cases he
  · rename_i bs he
    obtain rfl := Except.ok.inj (hbs.symm.trans he)
    dsimp only
    rw [hcapacity, ok_bind, hloop, ok_bind, hm]
    exact ⟨_, rfl⟩

theorem Trusts.blockSize_pos {sha256 : Sha256} {v : MerkleVerifier} {content salt : List UInt8}
    {blockLog : UInt8} (h : v.Trusts sha256 content blockLog salt) : 0 < v.blockSize := by
  rw [h.blockSize_eq]
  exact Nat.two_pow_pos _

/-- A block is accepted exactly at a multiple of the block size inside the tree,
when it is at most a block long and hashes to the leaf there. -/
theorem verifyBlock_eq_ok {sha256 : Sha256} {v : MerkleVerifier} {node : NodeId} {offset : ℕ}
    {data : List UInt8} :
    verifyBlock sha256 v node offset data = .ok () ↔
      offset % v.blockSize = 0 ∧ data.length ≤ v.blockSize ∧
        v.leaves[offset / v.blockSize]? = some (sha256 (blockInput v.saltPrefix v.blockSize data)) := by
  unfold verifyBlock
  by_cases halign : offset % v.blockSize = 0
  · rw [if_neg (by simpa using halign)]
    constructor
    · intro h
      obtain ⟨want, hwant, h⟩ := bind_eq_ok.mp h
      obtain ⟨got, hgot, h⟩ := bind_eq_ok.mp h
      rw [okOr_eq_ok] at hwant
      by_cases hlen : data.length ≤ v.blockSize
      · rw [hashBlock_of_le sha256 _ hlen] at hgot
        split at h
        · rename_i heq
          exact ⟨halign, hlen, by rw [hwant, ← heq, Except.ok.inj hgot]⟩
        · exact absurd h (fail_ne_ok _ _)
      · rw [hashBlock_of_lt sha256 _ (Nat.lt_of_not_le hlen)] at hgot
        cases hgot
    · rintro ⟨-, hlen, hleaf⟩
      simp only [okOr_eq_ok.mpr hleaf, hashBlock_of_le sha256 _ hlen, ok_bind, if_true]
  · rw [if_pos halign]
    constructor
    · intro h
      exact absurd h (fail_ne_ok _ _)
    · rintro ⟨hzero, -⟩
      exact absurd hzero halign

/-- In a built verifier, acceptance at block `i` compares with block `i` of the
genuine content. -/
theorem Trusts.verifyBlock_iff {sha256 : Sha256} {v : MerkleVerifier}
    {content salt : List UInt8} {blockLog : UInt8} (hv : v.Trusts sha256 content blockLog salt)
    {node : NodeId} {i : ℕ} {data : List UInt8} :
    verifyBlock sha256 v node (i * v.blockSize) data = .ok () ↔
      data.length ≤ v.blockSize ∧ i * v.blockSize < content.length ∧
        sha256 (blockInput v.saltPrefix v.blockSize data) =
          sha256 (blockInput v.saltPrefix v.blockSize (levelBlock content v.blockSize i)) := by
  have hpos := hv.blockSize_pos
  rw [verifyBlock_eq_ok, Nat.mul_mod_left, Nat.mul_div_cancel _ hpos, hv.leaves_eq,
    ← lt_divCeil_iff hpos]
  simp only [treeScheme, List.map_map, List.getElem?_map, true_and]
  by_cases hi : i < divCeil content.length v.blockSize
  · rw [List.getElem?_range hi]
    simp [hi, eq_comm]
  · rw [List.getElem?_eq_none (by simpa using hi)]
    simp [hi]

end MerkleVerifier

/-- The digests of the blocks, the length and the parameters decide the measurement. -/
theorem measurement_congr (sha256 : Sha256) {data data' : Slice} {blockLog : UInt8}
    (salt : List UInt8) (h6 : 6 ≤ blockLog.toNat) (hlen : data.val.length = data'.val.length)
    (h : ((treeScheme (paddedSalt salt) (2 ^ blockLog.toNat)).blocks data.val).map sha256 =
      ((treeScheme (paddedSalt salt) (2 ^ blockLog.toNat)).blocks data'.val).map sha256) :
    fsverityDigestSha256 sha256 data.val blockLog salt =
      fsverityDigestSha256 sha256 data'.val blockLog salt := by
  have hbs := blockSize_ge h6
  have hroot : merkleRoot sha256 data.val (2 ^ blockLog.toNat) (paddedSalt salt) =
      merkleRoot sha256 data'.val (2 ^ blockLog.toNat) (paddedSalt salt) := by
    unfold merkleRoot maxRounds
    by_cases hempty : data.val = []
    · have hempty' : data'.val = [] := by
        rw [hempty] at hlen
        exact List.length_eq_zero_iff.mp hlen.symm
      rw [hempty, hempty']
    · have hpos : 0 < data.val.length := List.length_pos_iff.mpr hempty
      have hempty' : data'.val ≠ [] := List.length_pos_iff.mp (hlen ▸ hpos)
      rw [if_neg hempty, if_neg hempty', ← hlen,
        merkleLoop_eq_root sha256 _ hbs _ _ hpos data.property,
        merkleLoop_eq_root sha256 _ hbs _ _ (hlen ▸ hpos) data'.property, Scheme.root_congr _ h]
  simp only [fsverityDigestSha256]
  by_cases h64 : blockLog.toNat < 64
  · rw [shiftOne_eq_ok.mpr ⟨h64, rfl⟩]
    simp only [ok_bind, hroot, descriptor, hlen]
  · simp only [shiftOne, if_neg h64, error_bind]

/-- A file of the genuine length whose blocks are all accepted has the
verifier's measurement, and every genuine block is accepted. -/
theorem accepted_blocks_measure (sha256 : Sha256) (genuine candidate : Slice)
    (blockLog : UInt8) (salt : List UInt8) (node : NodeId)
    (h6 : 6 ≤ blockLog.toNat) (h64 : blockLog.toNat < 64)
    (hlen : candidate.val.length = genuine.val.length) :
    ∃ v, MerkleVerifier.over sha256 genuine.val blockLog salt = .ok v ∧
      ((∀ i, i * v.blockSize < candidate.val.length →
          v.verifyBlock sha256 node (i * v.blockSize)
            (levelBlock candidate.val v.blockSize i) = .ok ()) →
        fsverityDigestSha256 sha256 candidate.val blockLog salt = .ok v.measurement) ∧
      ∀ i, i * v.blockSize < genuine.val.length →
        v.verifyBlock sha256 node (i * v.blockSize)
          (levelBlock genuine.val v.blockSize i) = .ok () := by
  obtain ⟨v, hover⟩ := MerkleVerifier.over_total sha256 genuine salt h6 h64
  have hv := MerkleVerifier.over_trusts hover
  refine ⟨v, hover, ?_, ?_⟩
  · intro haccept
    rw [← hv.measurement_eq]
    apply measurement_congr sha256 salt h6 hlen
    rw [← hv.saltPrefix_eq, ← hv.blockSize_eq]
    simp only [treeScheme, List.map_map, hlen]
    apply List.map_congr_left
    intro i hi
    have hi' : i * v.blockSize < genuine.val.length :=
      (lt_divCeil_iff hv.blockSize_pos).mp (List.mem_range.mp hi)
    exact (hv.verifyBlock_iff.mp (haccept i (hlen ▸ hi'))).2.2
  · intro i hi
    exact hv.verifyBlock_iff.mpr ⟨levelBlock_length_le _ _ _, hi, rfl⟩

/-- With a constant hash one byte passes for another, and the measurements agree. -/
theorem accepted_blocks_measure_constant :
    ∃ v, MerkleVerifier.over (fun _ => zeroDigest) [0x61] 12 [] = .ok v ∧
      ((∀ i, i * v.blockSize < [(0x62 : UInt8)].length →
          v.verifyBlock (fun _ => zeroDigest) 7 (i * v.blockSize)
            (levelBlock [0x62] v.blockSize i) = .ok ()) →
        fsverityDigestSha256 (fun _ => zeroDigest) [0x62] 12 [] = .ok v.measurement) ∧
      ∀ i, i * v.blockSize < [(0x61 : UInt8)].length →
        v.verifyBlock (fun _ => zeroDigest) 7 (i * v.blockSize)
          (levelBlock [0x61] v.blockSize i) = .ok () :=
  accepted_blocks_measure (fun _ => zeroDigest) ⟨[0x61], by decide⟩ ⟨[0x62], by decide⟩ 12 [] 7
    (by decide) (by decide) rfl

end Lamfold.Verity
