import Lamfold.Verity

/-!
The level loop of the fs-verity tree is a hash tree in the general sense: a
level's blocks are its salted, zero-padded pieces, and digests are joined by
concatenation. For blocks of at least 64 bytes the loop always ends.
-/
namespace Lamfold.Verity

open Effects Bytes HashTree

theorem zeroFill_eq (pad : ℕ) : zeroFill pad = List.replicate pad 0 := by
  induction pad using Nat.strong_induction_on with
  | h pad ih =>
    rw [zeroFill]
    by_cases hpad : 0 < pad
    · have hlt : pad - min pad sha256InputBlock < pad := by
        simp only [sha256InputBlock]
        omega
      rw [if_pos hpad]
      simp only [ih _ hlt, List.replicate_append_replicate]
      congr 1
      omega
    · have hzero : pad = 0 := by omega
      simp [hzero]

/-- The bytes hashed for one block. -/
def blockInput (saltPrefix : List UInt8) (bs : ℕ) (block : List UInt8) : List UInt8 :=
  saltPrefix ++ block ++ List.replicate (bs - block.length) 0

theorem hashBlock_of_le (sha256 : Sha256) (saltPrefix : List UInt8) {block : List UInt8} {bs : ℕ}
    (h : block.length ≤ bs) :
    hashBlock sha256 saltPrefix block bs = .ok (sha256 (blockInput saltPrefix bs block)) := by
  simp [hashBlock, minus, h, zeroFill_eq, blockInput, ok_bind, pure, Except.pure]

theorem hashBlock_of_lt (sha256 : Sha256) (saltPrefix : List UInt8) {block : List UInt8} {bs : ℕ}
    (h : bs < block.length) : hashBlock sha256 saltPrefix block bs = .error .panic := by
  simp [hashBlock, minus, Nat.not_le.mpr h]

theorem levelBlock_length (level : List UInt8) (bs i : ℕ) :
    (levelBlock level bs i).length = min bs (level.length - i * bs) := by
  simp only [levelBlock, List.length_take, List.length_drop]
  omega

theorem levelBlock_length_le (level : List UInt8) (bs i : ℕ) :
    (levelBlock level bs i).length ≤ bs := by
  rw [levelBlock_length]
  exact Nat.min_le_left _ _

/-- Byte `j` of a level is byte `j % bs` of its block `j / bs`. -/
theorem levelBlock_getElem? {level : List UInt8} {bs j : ℕ} (hbs : 0 < bs)
    (hj : j < level.length) : (levelBlock level bs (j / bs))[j % bs]? = level[j]? := by
  have hmod : j % bs < bs := Nat.mod_lt j hbs
  have hdecomp : j / bs * bs + j % bs = j := Nat.div_add_mod' j bs
  unfold levelBlock
  rw [List.getElem?_take_of_lt (by omega), List.getElem?_drop, hdecomp]

/-- A level is its length and its blocks. -/
theorem eq_of_levelBlocks {level level' : List UInt8} {bs : ℕ} (hbs : 0 < bs)
    (hlen : level.length = level'.length)
    (h : ∀ i, i < divCeil level.length bs → levelBlock level bs i = levelBlock level' bs i) :
    level = level' := by
  apply List.ext_getElem? fun j => ?_
  by_cases hj : j < level.length
  · have hblock : j / bs < divCeil level.length bs := by
      rw [lt_divCeil_iff hbs]
      exact lt_of_le_of_lt (Nat.div_mul_le_self j bs) hj
    rw [← levelBlock_getElem? hbs hj, h _ hblock, levelBlock_getElem? hbs (hlen ▸ hj)]
  · rw [List.getElem?_eq_none (by omega), List.getElem?_eq_none (by omega)]

/-- The tree over blocks of `bs` bytes under a salt prefix. -/
def treeScheme (saltPrefix : List UInt8) (bs : ℕ) :
    Scheme (List UInt8) (List UInt8) Sha256Digest where
  blocks level := (List.range (divCeil level.length bs)).map
    fun i => blockInput saltPrefix bs (levelBlock level bs i)
  join digests := digests.flatMap Subtype.val

@[simp] theorem treeScheme_blocks_length (saltPrefix : List UInt8) (bs : ℕ)
    (level : List UInt8) :
    ((treeScheme saltPrefix bs).blocks level).length = divCeil level.length bs := by
  simp [treeScheme]

theorem joined_length (digests : List Sha256Digest) :
    (digests.flatMap Subtype.val).length = 32 * digests.length := by
  induction digests with
  | nil => rfl
  | cons d digests ih =>
    simp only [List.flatMap_cons, List.length_append, d.property, ih, List.length_cons]
    omega

theorem joined_inj {digests digests' : List Sha256Digest}
    (h : digests.flatMap Subtype.val = digests'.flatMap Subtype.val) : digests = digests' := by
  induction digests generalizing digests' with
  | nil =>
    have hlen := congrArg List.length h
    rw [joined_length, joined_length] at hlen
    have hzero : digests'.length = 0 := by simpa using hlen.symm
    exact (List.length_eq_zero_iff.mp hzero).symm
  | cons d digests ih =>
    cases digests' with
    | nil =>
      have hlen := congrArg List.length h
      rw [joined_length, joined_length] at hlen
      simp at hlen
    | cons d' digests' =>
      simp only [List.flatMap_cons] at h
      obtain ⟨hd, hrest⟩ := List.append_inj h (d.property.trans d'.property.symm)
      rw [Subtype.ext hd, ih hrest]

/-- Salting and zero padding keep blocks of one length apart. -/
theorem blockInput_inj {saltPrefix block block' : List UInt8} {bs : ℕ}
    (hlen : block.length = block'.length)
    (h : blockInput saltPrefix bs block = blockInput saltPrefix bs block') : block = block' := by
  unfold blockInput at h
  rw [List.append_assoc, List.append_assoc, List.append_cancel_left_eq] at h
  exact (List.append_inj h hlen).1

theorem treeScheme_faithful (saltPrefix : List UInt8) {bs : ℕ} (hbs : 0 < bs) :
    (treeScheme saltPrefix bs).Faithful List.length where
  blocks_length level level' hlen := by simp [hlen]
  blocks_inj level level' hlen hblocks := by
    apply eq_of_levelBlocks hbs hlen
    intro i hi
    simp only [treeScheme, hlen] at hblocks
    have hinput := List.map_inj_left.mp hblocks i (List.mem_range.mpr (hlen ▸ hi))
    exact blockInput_inj (by simp [levelBlock_length, hlen]) hinput
  join_inj digests digests' h := joined_inj h
  size_join digests digests' hlen := by simp only [treeScheme, joined_length, hlen]

theorem levelBlock_zero_of_le {level : List UInt8} {bs : ℕ} (h : level.length ≤ bs) :
    levelBlock level bs 0 = level := by
  simp [levelBlock, h]

/-- A level that is not empty is a single block exactly when it fits in one. -/
theorem divCeil_eq_one_iff {a b : ℕ} (hb : 0 < b) (ha : 0 < a) : divCeil a b = 1 ↔ a ≤ b := by
  have hpos := divCeil_pos hb ha
  have hone := lt_divCeil_iff (a := a) (i := 1) hb
  omega

theorem next_length (sha256 : Sha256) (saltPrefix : List UInt8) (bs : ℕ) (level : List UInt8) :
    ((treeScheme saltPrefix bs).next sha256 level).length = 32 * divCeil level.length bs := by
  simp only [Scheme.next, treeScheme, joined_length, List.length_map, List.length_range]

theorem divCeil_le_one_iff {a b : ℕ} (hb : 0 < b) : divCeil a b ≤ 1 ↔ a ≤ b := by
  have hone := lt_divCeil_iff (a := a) (i := 1) hb
  omega

/-- The last round hashes the only block. -/
theorem merkleLoop_of_le (sha256 : Sha256) (saltPrefix : List UInt8) {bs : ℕ} (hbs : 0 < bs)
    (rounds : ℕ) {level : List UInt8} (h : level.length ≤ bs) :
    merkleLoop sha256 bs saltPrefix (rounds + 1) level =
      .ok (sha256 (blockInput saltPrefix bs level)) := by
  rw [merkleLoop]
  simp only [(divCeil_le_one_iff hbs).mpr h, if_true]
  exact hashBlock_of_le sha256 saltPrefix h

/-- A round with more than one block goes up one level, if that has room in a vector. -/
theorem merkleLoop_of_lt (sha256 : Sha256) (saltPrefix : List UInt8) {bs : ℕ} (hbs : 0 < bs)
    (rounds : ℕ) {level : List UInt8} (h : bs < level.length) :
    merkleLoop sha256 bs saltPrefix (rounds + 1) level =
      if divCeil level.length bs * hashLen < 2 ^ 63 then
        merkleLoop sha256 bs saltPrefix rounds ((treeScheme saltPrefix bs).next sha256 level)
      else .error .panic := by
  have hmany : ¬divCeil level.length bs ≤ 1 := by
    rw [divCeil_le_one_iff hbs]
    omega
  have hmapM : (List.range (divCeil level.length bs)).mapM
      (fun i => hashBlock sha256 saltPrefix (levelBlock level bs i) bs) =
        .ok ((List.range (divCeil level.length bs)).map
          fun i => sha256 (blockInput saltPrefix bs (levelBlock level bs i))) :=
    mapM_eq_ok_map (fun i _ => hashBlock_of_le sha256 saltPrefix (levelBlock_length_le level bs i))
  rw [merkleLoop]
  simp only [hmany, if_false, hmapM]
  by_cases hroom : divCeil level.length bs * hashLen < 2 ^ 63
  · have hproduct : u64 (divCeil level.length bs * hashLen) = .ok _ :=
      fits_eq_ok.mpr ⟨by omega, rfl⟩
    have hcapacity : withCapacity 1 (divCeil level.length bs * hashLen) = .ok () :=
      if_pos (by omega)
    rw [if_pos hroom, hproduct, ok_bind, hcapacity]
    simp only [ok_bind, Scheme.next, treeScheme, List.map_map]
    rfl
  · rw [if_neg hroom, u64, fits]
    split
    · have hcapacity : withCapacity 1 (divCeil level.length bs * hashLen) = .error .panic :=
        if_neg (by omega)
      rw [ok_bind, hcapacity]
      rfl
    · rfl

/-- With blocks of at least two digests every level of two blocks shrinks. -/
theorem next_shrinks (sha256 : Sha256) (saltPrefix : List UInt8) {bs : ℕ} (hbs : 64 ≤ bs)
    {level : List UInt8} (h : bs < level.length) :
    ((treeScheme saltPrefix bs).next sha256 level).length < level.length := by
  have hbound : divCeil level.length bs ≤ (level.length + 63) / 64 := by
    by_contra hnot
    have hlt := (lt_divCeil_iff (by omega)).mp (Nat.lt_of_not_le hnot)
    have hmono := Nat.mul_le_mul_left ((level.length + 63) / 64) hbs
    omega
  rw [next_length]
  omega

/-- A level below one that has room in a vector has room itself, with such blocks. -/
theorem merkleLoop_shrinks (sha256 : Sha256) (saltPrefix : List UInt8) {bs : ℕ} (hbs : 64 ≤ bs)
    (rounds : ℕ) {level : List UInt8} (h : bs < level.length) (hroom : level.length < 2 ^ 63) :
    merkleLoop sha256 bs saltPrefix (rounds + 1) level =
      merkleLoop sha256 bs saltPrefix rounds ((treeScheme saltPrefix bs).next sha256 level) := by
  have hless := next_shrinks sha256 saltPrefix hbs h
  rw [next_length] at hless
  have hnext : divCeil level.length bs * hashLen < 2 ^ 63 := by
    unfold hashLen
    omega
  rw [merkleLoop_of_lt sha256 saltPrefix (by omega) rounds h, if_pos hnext]

/-- One round of the loop either hashes the only block or goes up one level. -/
theorem merkleLoop_eq_root (sha256 : Sha256) (saltPrefix : List UInt8) {bs : ℕ} (hbs : 64 ≤ bs)
    (rounds : ℕ) (level : List UInt8) (hlevel : 0 < level.length) (hroom : level.length < 2 ^ 63) :
    merkleLoop sha256 bs saltPrefix rounds level =
      match (treeScheme saltPrefix bs).root sha256 rounds level with
      | some d => .ok d
      | none => .error .hang := by
  have hpos : 0 < bs := by omega
  induction rounds generalizing level with
  | zero => rfl
  | succ rounds ih =>
    by_cases hle : level.length ≤ bs
    · have hone := (divCeil_eq_one_iff hpos hlevel).mpr hle
      have hblocks : (treeScheme saltPrefix bs).blocks level = [blockInput saltPrefix bs level] := by
        simp [treeScheme, hone, List.range_succ, levelBlock_zero_of_le hle]
      rw [Scheme.root_of_single rounds hblocks]
      exact merkleLoop_of_le sha256 saltPrefix hpos rounds hle
    · have hlong := Nat.lt_of_not_le hle
      have hless := next_shrinks sha256 saltPrefix hbs hlong
      have hsome := divCeil_pos hpos hlevel
      have hmany : divCeil level.length bs ≠ 1 :=
        fun hone => hle ((divCeil_eq_one_iff hpos hlevel).mp hone)
      rw [merkleLoop_shrinks sha256 saltPrefix hbs rounds hlong hroom,
        Scheme.root_of_many rounds (by simpa using hmany),
        ih _ (by rw [next_length]; omega) (by omega)]

/-- For block sizes from 64 on, the level loop ends and the root exists. -/
theorem merkleRoot_total (sha256 : Sha256) (data : Slice) (saltPrefix : List UInt8) {bs : ℕ}
    (hbs : 64 ≤ bs) : ∃ root, merkleRoot sha256 data.val bs saltPrefix = .ok root := by
  unfold merkleRoot
  by_cases hdata : data.val = []
  · exact ⟨zeroDigest, by rw [if_pos hdata]⟩
  · have hpos : 0 < data.val.length := List.length_pos_iff.mpr hdata
    have hstep : ∀ level : List UInt8, 0 < level.length →
        ((treeScheme saltPrefix bs).blocks level).length ≠ 1 →
          ((treeScheme saltPrefix bs).next sha256 level).length < level.length ∧
            0 < ((treeScheme saltPrefix bs).next sha256 level).length := by
      intro level hlevel hone
      rw [treeScheme_blocks_length] at hone
      have hlong : bs < level.length := by
        by_contra hle
        exact hone ((divCeil_eq_one_iff (by omega) hlevel).mpr (Nat.le_of_not_lt hle))
      refine ⟨next_shrinks sha256 saltPrefix hbs hlong, ?_⟩
      have hblocks := divCeil_pos (b := bs) (by omega) hlevel
      rw [next_length]
      omega
    have hrounds : data.val.length < maxRounds data.val := Nat.lt_add_of_pos_right (by decide)
    obtain ⟨d, hd⟩ := Scheme.exists_root hstep data.val hpos (maxRounds data.val) hrounds
    refine ⟨d, ?_⟩
    rw [if_neg hdata, merkleLoop_eq_root sha256 saltPrefix hbs _ _ hpos data.property, hd]

theorem blockSize_ge {blockLog : UInt8} (h6 : 6 ≤ blockLog.toNat) : 64 ≤ 2 ^ blockLog.toNat :=
  calc 64 = 2 ^ 6 := by norm_num
    _ ≤ 2 ^ blockLog.toNat := Nat.pow_le_pow_right (by norm_num) h6

theorem fsverityDigestSha256_total (sha256 : Sha256) (data : Slice) {blockLog : UInt8}
    (salt : List UInt8) (h6 : 6 ≤ blockLog.toNat) (h64 : blockLog.toNat < 64) :
    ∃ d, fsverityDigestSha256 sha256 data.val blockLog salt = .ok d := by
  obtain ⟨root, hroot⟩ := merkleRoot_total sha256 data (paddedSalt salt) (blockSize_ge h6)
  refine ⟨sha256 (descriptor data.val blockLog root salt), ?_⟩
  rw [fsverityDigestSha256, shiftOne_eq_ok.mpr ⟨h64, rfl⟩, ok_bind, hroot]
  rfl

end Lamfold.Verity
