import Lamfold.Cpio
import Lamfold.StreamBounds

/-!
Streams of the legacy LZ4 format, written and read back. The format has no end marker: a
stream ends where the next four bytes cannot be the size of a block, and what can stand
behind it in an initramfs never is one.
-/
namespace Lamfold.Streams

open Effects Bytes Loops

section Legacy

variable {δ ρ : Type} {d : Decoders δ ρ}

/-- A block as it is stored, and what it decodes to in any room that is large enough. -/
structure LegacyBlock (d : Decoders δ ρ) where
  stored : List UInt8
  stored_pos : 0 < stored.length
  stored_le : stored.length ≤ lz4LegacyMaxCompressed
  data : List UInt8
  data_le : data.length ≤ lz4LegacyBlock
  decodes : ∀ room, data.length ≤ room → d.lz4Block stored room = some data

/-- A block behind its size. -/
def LegacyBlock.encode (b : LegacyBlock d) : List UInt8 := leBytes 4 b.stored.length ++ b.stored

/-- Streams one after another, each the magic and blocks. -/
def encodeLegacy (streams : List (List (LegacyBlock d))) : List UInt8 :=
  streams.flatMap fun blocks => lz4LegacyMagic ++ blocks.flatMap LegacyBlock.encode

/-- The decoded blocks. -/
def legacyData (streams : List (List (LegacyBlock d))) : List UInt8 :=
  streams.flatMap fun blocks => blocks.flatMap LegacyBlock.data

/-- What an initramfs can have behind a compressed member: nothing, zeros, or a newc or CRC
archive behind the zeros that align it. -/
inductive Continuation : List UInt8 → Prop
  | nil : Continuation []
  | zeros {rest : List UInt8} : Continuation (List.replicate 4 0 ++ rest)
  | archive {n : ℕ} {rest : List UInt8} (hn : n ≤ 3)
      (hmagic : Cpio.newcMagic.isPrefixOf rest = true ∨ Cpio.crcMagic.isPrefixOf rest = true) :
      Continuation (List.replicate n 0 ++ rest)

/-- The next four bytes cannot be the size of a block, nor the magic. -/
def NoBlock (rest : List UInt8) : Prop :=
  ∀ head, slice rest 0 4 = some head →
    head ≠ lz4LegacyMagic ∧ (leNat head = 0 ∨ leNat head > lz4LegacyMaxCompressed)

/-- The digits that both magics start with. -/
def archiveDigits : List UInt8 := [0x30, 0x37, 0x30, 0x37]

theorem archive_digits {rest : List UInt8}
    (h : Cpio.newcMagic.isPrefixOf rest = true ∨ Cpio.crcMagic.isPrefixOf rest = true) :
    ∃ more, rest = archiveDigits ++ more := by
  rcases h with h | h
  · obtain ⟨more, rfl⟩ := List.isPrefixOf_iff_prefix.mp h
    exact ⟨[0x30, 0x31] ++ more, rfl⟩
  · obtain ⟨more, rfl⟩ := List.isPrefixOf_iff_prefix.mp h
    exact ⟨[0x30, 0x32] ++ more, rfl⟩

/-- With up to three zeros before them, the digits are too large for a size. -/
theorem zeros_archiveDigits : ∀ n ≤ 3,
    (List.replicate n 0 ++ archiveDigits).take 4 ≠ lz4LegacyMagic ∧
      leNat ((List.replicate n 0 ++ archiveDigits).take 4) > lz4LegacyMaxCompressed := by
  decide

theorem Continuation.noBlock {rest : List UInt8} (h : Continuation rest) : NoBlock rest := by
  intro head hhead
  obtain ⟨hlen, rfl⟩ := slice_eq_some.mp hhead
  rw [List.drop_zero]
  cases h with
  | nil => exact absurd hlen (by decide)
  | zeros =>
    rw [List.take_left' List.length_replicate]
    exact ⟨by decide, .inl (by decide)⟩
  | @archive n rest hn hmagic =>
    obtain ⟨more, rfl⟩ := archive_digits hmagic
    have hfour : 4 ≤ (List.replicate n 0 ++ archiveDigits).length := by
      rw [List.length_append]
      exact Nat.le_add_left 4 _
    obtain ⟨hne, hlarge⟩ := zeros_archiveDigits n hn
    rw [← List.append_assoc, List.take_append_of_le_length hfour]
    exact ⟨hne, .inr hlarge⟩

/-- The loop is left in front of what is no block. -/
theorem lz4Turn_stop {pre rest out : List UInt8} {maxOut : ℕ} (h : NoBlock rest) :
    lz4Turn d (pre ++ rest) maxOut ⟨pre.length, out⟩ = .ok (.inl (out, pre.length)) := by
  have hslice : slice (pre ++ rest) pre.length 4 = slice rest 0 4 :=
    slice_append_right pre rest 0 4
  unfold lz4Turn
  dsimp only
  rw [hslice]
  cases hhead : slice rest 0 4 with
  | none => rfl
  | some head =>
    obtain ⟨hmagic, hsize⟩ := h head hhead
    dsimp only
    rw [if_neg hmagic, if_pos hsize]

theorem lz4Turn_magic {pre post out : List UInt8} {maxOut : ℕ} :
    lz4Turn d (pre ++ lz4LegacyMagic ++ post) maxOut ⟨pre.length, out⟩ =
      .ok (.inr ⟨(pre ++ lz4LegacyMagic).length, out⟩) := by
  have hslice : slice (pre ++ lz4LegacyMagic ++ post) pre.length 4 = some lz4LegacyMagic :=
    slice_of_append rfl rfl rfl
  unfold lz4Turn
  dsimp only
  rw [hslice]
  dsimp only
  rw [if_pos rfl, List.length_append]
  rfl

theorem growBlock_eq {out : List UInt8} {maxOut : ℕ} (hcap : out.length ≤ maxOut)
    (hreserve : d.reserve out.length (min lz4LegacyBlock (maxOut - out.length)) = true) :
    growBlock d out maxOut =
      .ok (out ++ List.replicate (min lz4LegacyBlock (maxOut - out.length)) 0) := by
  unfold growBlock
  rw [minus_eq_ok.mpr ⟨hcap, rfl⟩, ok_bind]
  exact if_pos hreserve

theorem decodeBlock_eq (b : LegacyBlock d) {out : List UInt8} {room maxOut : ℕ}
    (hroom : b.data.length ≤ room) :
    decodeBlock d b.stored out (out ++ List.replicate room 0) maxOut = .ok (out ++ b.data) := by
  have htarget : getFrom (out ++ List.replicate room (0 : UInt8)) out.length =
      some (List.replicate room 0) :=
    getFrom_eq_some.mpr ⟨by rw [List.length_append]; omega, List.drop_left⟩
  have hdecode : d.lz4Block b.stored (List.replicate room (0 : UInt8)).length = some b.data :=
    b.decodes _ (by rwa [List.length_replicate])
  have hwritten : (overwrite (out ++ List.replicate room 0) out.length b.data).take
      (out.length + b.data.length) = out ++ b.data := by
    unfold overwrite
    rw [List.take_left]
    exact List.take_left' (List.length_append ..)
  unfold decodeBlock
  dsimp only
  rw [htarget, unwrap, ok_bind, hdecode]
  dsimp only
  rw [hwritten]
  rfl

section Stored

variable (b : LegacyBlock d)

theorem LegacyBlock.encode_length : b.encode.length = 4 + b.stored.length := by
  rw [LegacyBlock.encode, List.length_append, leBytes_length]

theorem LegacyBlock.leNat_size : leNat (leBytes 4 b.stored.length) = b.stored.length :=
  leNat_leBytes (Nat.lt_of_le_of_lt b.stored_le (by decide))

theorem LegacyBlock.size_ne_magic : leBytes 4 b.stored.length ≠ lz4LegacyMagic := by
  intro h
  have hnumber := congrArg leNat h
  rw [b.leNat_size] at hnumber
  exact absurd (hnumber ▸ b.stored_le) (by decide)

theorem LegacyBlock.slice_size (pre post : List UInt8) :
    slice (pre ++ b.encode ++ post) pre.length 4 = some (leBytes 4 b.stored.length) := by
  refine @slice_of_append _ _ pre _ (b.stored ++ post) _ _ ?_ rfl (leBytes_length _ _).symm
  simp only [LegacyBlock.encode, List.append_assoc]

theorem LegacyBlock.slice_stored (pre post : List UInt8) :
    slice (pre ++ b.encode ++ post) (pre.length + 4) b.stored.length = some b.stored := by
  refine @slice_of_append _ _ (pre ++ leBytes 4 b.stored.length) b.stored post _ _ ?_ ?_ rfl
  · simp only [LegacyBlock.encode, List.append_assoc]
  · rw [List.length_append, leBytes_length]

end Stored

/-- A block that fits is decoded, and the next turn starts behind it. -/
theorem lz4Turn_block (b : LegacyBlock d) {pre post out : List UInt8} {maxOut : ℕ}
    (hroom : (out ++ b.data).length ≤ maxOut)
    (hreserve : d.reserve out.length (min lz4LegacyBlock (maxOut - out.length)) = true) :
    lz4Turn d (pre ++ b.encode ++ post) maxOut ⟨pre.length, out⟩ =
      .ok (.inr ⟨(pre ++ b.encode).length, out ++ b.data⟩) := by
  have hpos := b.stored_pos
  have hle := b.stored_le
  have hdata := b.data_le
  rw [List.length_append] at hroom
  have hinput : (pre ++ b.encode ++ post).length =
      pre.length + (4 + b.stored.length) + post.length := by
    rw [List.length_append, List.length_append, b.encode_length]
  have hvalid : ¬(leNat (leBytes 4 b.stored.length) = 0 ∨
      leNat (leBytes 4 b.stored.length) > lz4LegacyMaxCompressed) := by
    rw [b.leNat_size]
    omega
  have hleft : minus (pre ++ b.encode ++ post).length pre.length =
      .ok (4 + b.stored.length + post.length) := minus_eq_ok.mpr ⟨by omega, by omega⟩
  have hrest : minus (4 + b.stored.length + post.length) 4 =
      .ok (b.stored.length + post.length) := minus_eq_ok.mpr ⟨by omega, by omega⟩
  unfold lz4Turn
  dsimp only
  rw [b.slice_size pre post]
  dsimp only
  rw [if_neg b.size_ne_magic, if_neg hvalid, hleft, ok_bind, hrest, ok_bind, b.leNat_size,
    if_neg (by omega), b.slice_stored pre post, unwrap, ok_bind, growBlock_eq (by omega) hreserve,
    ok_bind, decodeBlock_eq b (by omega), ok_bind, List.length_append, b.encode_length]
  rfl

section Runs

variable {maxOut : ℕ} {total : ℕ}

/-- The allocator has room for an output of up to `total` bytes and one block more, within
the cap. -/
def Reserves (d : Decoders δ ρ) (total maxOut : ℕ) : Prop :=
  ∀ a b, a ≤ total → b ≤ lz4LegacyBlock → a + b ≤ maxOut → d.reserve a b = true

theorem run_blocks (hreserve : Reserves d total maxOut) (htotal : total ≤ maxOut)
    (blocks : List (LegacyBlock d)) {input pre post out : List UInt8}
    (hinput : input = pre ++ blocks.flatMap LegacyBlock.encode ++ post)
    (hroom : (out ++ blocks.flatMap LegacyBlock.data).length ≤ total) :
    run (lz4Turn d input maxOut) _ (lz4Turn_lowers d input maxOut) ⟨pre.length, out⟩ =
      run (lz4Turn d input maxOut) _ (lz4Turn_lowers d input maxOut)
        ⟨(pre ++ blocks.flatMap LegacyBlock.encode).length,
          out ++ blocks.flatMap LegacyBlock.data⟩ := by
  induction blocks generalizing pre out with
  | nil => simp only [List.flatMap_nil, List.append_nil]
  | cons b blocks ih =>
    rw [List.flatMap_cons] at hinput hroom ⊢
    rw [List.flatMap_cons]
    have hsplit : input = pre ++ b.encode ++ (blocks.flatMap LegacyBlock.encode ++ post) := by
      rw [hinput]
      simp only [List.append_assoc]
    simp only [List.length_append] at hroom
    have hturn := @lz4Turn_block _ _ d b pre (blocks.flatMap LegacyBlock.encode ++ post) out maxOut
      (by rw [List.length_append]; omega)
      (hreserve _ _ (by omega) (Nat.min_le_left ..) (by omega))
    rw [← hsplit] at hturn
    have hrest := @ih (pre ++ b.encode) (out ++ b.data) (by rw [hsplit]; simp only [List.append_assoc])
      (by simp only [List.length_append]; omega)
    rw [run_of_next _ hturn, hrest]
    simp only [List.append_assoc]

theorem run_streams (hreserve : Reserves d total maxOut) (htotal : total ≤ maxOut)
    (streams : List (List (LegacyBlock d))) {input pre post out : List UInt8}
    (hinput : input = pre ++ encodeLegacy streams ++ post)
    (hroom : (out ++ legacyData streams).length ≤ total) :
    run (lz4Turn d input maxOut) _ (lz4Turn_lowers d input maxOut) ⟨pre.length, out⟩ =
      run (lz4Turn d input maxOut) _ (lz4Turn_lowers d input maxOut)
        ⟨(pre ++ encodeLegacy streams).length, out ++ legacyData streams⟩ := by
  induction streams generalizing pre out with
  | nil => simp only [encodeLegacy, legacyData, List.flatMap_nil, List.append_nil]
  | cons blocks streams ih =>
    have hencode : encodeLegacy (blocks :: streams) =
        lz4LegacyMagic ++ blocks.flatMap LegacyBlock.encode ++ encodeLegacy streams := rfl
    have hdata : legacyData (blocks :: streams) =
        blocks.flatMap LegacyBlock.data ++ legacyData streams := rfl
    rw [hencode] at hinput ⊢
    rw [hdata] at hroom ⊢
    simp only [List.length_append] at hroom
    have hmagic : input = pre ++ lz4LegacyMagic ++
        (blocks.flatMap LegacyBlock.encode ++ encodeLegacy streams ++ post) := by
      rw [hinput]
      simp only [List.append_assoc]
    have hturn := @lz4Turn_magic _ _ d pre
      (blocks.flatMap LegacyBlock.encode ++ encodeLegacy streams ++ post) out maxOut
    rw [← hmagic] at hturn
    have hblocks := @run_blocks _ _ _ _ _ hreserve htotal blocks input (pre ++ lz4LegacyMagic)
      (encodeLegacy streams ++ post) out (by rw [hmagic]; simp only [List.append_assoc])
      (by rw [List.length_append]; omega)
    have hrest := @ih (pre ++ lz4LegacyMagic ++ blocks.flatMap LegacyBlock.encode)
      (out ++ blocks.flatMap LegacyBlock.data) (by rw [hmagic]; simp only [List.append_assoc])
      (by simp only [List.length_append]; omega)
    rw [run_of_next _ hturn, hblocks, hrest]
    simp only [List.append_assoc]

end Runs

/-- A file of legacy streams is decoded block for block, and its end is found in front of
whatever an initramfs can have behind it. -/
theorem decodeStream_lz4Legacy {features : Features} (hlz4 : features.lz4 = true)
    (blocks : List (LegacyBlock d)) (more : List (List (LegacyBlock d))) {rest : List UInt8}
    (hrest : Continuation rest) {maxOut : ℕ} (hroom : (legacyData (blocks :: more)).length ≤ maxOut)
    (hreserve : Reserves d (legacyData (blocks :: more)).length maxOut) :
    decodeStream d features .lz4Legacy (encodeLegacy (blocks :: more) ++ rest) maxOut =
      .ok (legacyData (blocks :: more), (encodeLegacy (blocks :: more)).length) := by
  have hencode : encodeLegacy (blocks :: more) =
      lz4LegacyMagic ++ blocks.flatMap LegacyBlock.encode ++ encodeLegacy more := rfl
  have hdata : legacyData (blocks :: more) =
      blocks.flatMap LegacyBlock.data ++ legacyData more := rfl
  rw [hdata] at hroom hreserve ⊢
  generalize hinput : encodeLegacy (blocks :: more) ++ rest = input
  have hsplit : input = lz4LegacyMagic ++ (blocks.flatMap LegacyBlock.encode ++
      (encodeLegacy more ++ rest)) := by
    rw [← hinput, hencode]
    simp only [List.append_assoc]
  have hmagic : lz4LegacyMagic.isPrefixOf input = true :=
    List.isPrefixOf_iff_prefix.mpr ⟨_, hsplit.symm⟩
  -- the loop starts behind the first magic, which no turn reads
  have hfirst := @run_blocks _ _ d maxOut _ hreserve hroom blocks input lz4LegacyMagic
    (encodeLegacy more ++ rest) [] (by rw [hsplit]; simp only [List.append_assoc])
    (by rw [List.nil_append, List.length_append]; exact Nat.le_add_right _ _)
  have hmore := @run_streams _ _ d maxOut _ hreserve hroom more input
    (lz4LegacyMagic ++ blocks.flatMap LegacyBlock.encode) rest (blocks.flatMap LegacyBlock.data)
    (by rw [hsplit]; simp only [List.append_assoc]) le_rfl
  have hstop : lz4Turn d input maxOut ⟨(encodeLegacy (blocks :: more)).length,
      blocks.flatMap LegacyBlock.data ++ legacyData more⟩ = .ok (.inl
        (blocks.flatMap LegacyBlock.data ++ legacyData more,
          (encodeLegacy (blocks :: more)).length)) := by
    rw [← hinput]
    exact lz4Turn_stop hrest.noBlock
  rw [← hencode] at hmore
  show (if features.lz4 then lz4Legacy d input maxOut else _) = _
  rw [if_pos hlz4, lz4Legacy, hmagic]
  exact hfirst.trans (hmore.trans (run_of_leave _ hstop))

end Legacy

/-- The block of the literal `a`. -/
def literalBlock : LegacyBlock lz4Only where
  stored := [0x10, 0x61]
  stored_pos := Nat.zero_lt_succ _
  stored_le := Nat.le_of_ble_eq_true rfl
  data := [0x61]
  data_le := Nat.le_of_ble_eq_true rfl
  decodes _ hroom := literal_decodes hroom

/-- Two streams, the second of two blocks, then two zeros and a newc archive. -/
theorem decodeStream_lz4Legacy_twoStreams :
    decodeStream lz4Only allFeatures .lz4Legacy
      (encodeLegacy [[literalBlock], [literalBlock, literalBlock]] ++
        (List.replicate 2 0 ++ Cpio.newcMagic)) 16 = .ok ([0x61, 0x61, 0x61], 26) :=
  decodeStream_lz4Legacy rfl [literalBlock] [[literalBlock, literalBlock]]
    (.archive (by decide) (.inl rfl)) (by decide) fun _ _ _ _ _ => rfl

end Lamfold.Streams
