import Lamfold.SquashContent
import Lamfold.SquashListing
import Lamfold.StableNodes
import Lamfold.TableFiles

/-!
Whole SquashFS volumes. A volume stores a graph of files when every file has an inode in the
metadata, a directory its listing there, and a file its data blocks back to back, the tail maybe
in a fragment. Blocks are stored as they are or compressed, and blocks of zeros not at all.
-/
namespace Lamfold.SquashFs

open Effects Bytes Utf8 FileGraph

variable {ρ : Type}

section Metadata

variable (codecs : Codecs ρ) (vol : Volume)

/-- The bytes stand in the metadata from byte `offset` of the block at `absBlock` on. -/
def MetaAt (absBlock offset : ℕ) (bytes : List UInt8) : Prop :=
  ∃ first more post, MetaRun codecs vol absBlock (first :: more) ∧ (∀ b ∈ more, b ≠ []) ∧
    first.drop offset ++ more.flatten = bytes ++ post

variable {codecs vol} {absBlock offset n : ℕ} {bytes : List UInt8}

theorem MetaAt.span (h : MetaAt codecs vol absBlock offset bytes) (hcap : n ≤ maxBootFileBytes)
    (hn : n ≤ bytes.length) : readMetaSpan codecs vol absBlock offset n = .ok (bytes.take n) := by
  obtain ⟨first, more, post, hrun, hmore, hbytes⟩ := h
  have hroom : n ≤ (first.drop offset ++ more.flatten).length := by
    rw [hbytes, List.length_append]
    omega
  rw [readMetaSpan_run hrun hmore hcap hroom, hbytes, List.take_append_of_le_length hn]

/-- The block that they start in lies in the source. -/
theorem MetaAt.lt (h : MetaAt codecs vol absBlock offset bytes) : absBlock < 2 ^ 64 := by
  obtain ⟨first, more, post, hrun, -⟩ := h
  cases hrun with
  | cons hslice =>
    have hin := (slice_eq_some.mp hslice).1
    have hlt := vol.src.length_lt
    omega

end Metadata

section Data

variable (codecs : Codecs ρ) (vol : Volume)

/-- The size word and the bytes that a block of data is stored in. -/
inductive DataStored : List UInt8 → ℕ → List UInt8 → Prop
  | plain {data : List UInt8} (hne : data ≠ []) (hlen : data.length < 2 ^ 24) :
      DataStored data (2 ^ 24 + data.length) data
  | packed {data raw : List UInt8} (hne : raw ≠ []) (hlen : raw.length < 2 ^ 24)
      (hdecode : decode codecs vol.codec raw vol.blockSize = .ok data) :
      DataStored data raw.length raw

/-- A block of a file at `start` with its size word, and where the next one starts. Of a block of
zeros nothing is stored. -/
inductive BlockAt (start : ℕ) : List UInt8 → ℕ → ℕ → Prop
  | sparse {n : ℕ} : BlockAt start (List.replicate n 0) 0 start
  | stored {word : ℕ} {data bytes : List UInt8}
      (hslice : slice vol.src.content start bytes.length = some bytes)
      (hstored : DataStored codecs vol data word bytes) :
      BlockAt start data word (start + bytes.length)

/-- The blocks from `start` on have the data, before `tail` more bytes of the file: each but the
last one of the file is full. -/
inductive Blocks : ℕ → List UInt8 → ℕ → List ℕ → Prop
  | nil {start tail : ℕ} : Blocks start [] tail []
  | cons {start next word tail : ℕ} {data rest : List UInt8} {words : List ℕ} (hne : data ≠ [])
      (hfull : data.length = min vol.blockSize (data.length + rest.length + tail))
      (hblock : BlockAt codecs vol start data word next) (hrest : Blocks next rest tail words) :
      Blocks start (data ++ rest) tail (word :: words)

/-- A fragment block: the table of its entry, and the block itself. -/
def FragmentStored (idx : ℕ) (frag : List UInt8) : Prop :=
  ∃ ptr start word bytes unread, ptr < 2 ^ 64 ∧ start < 2 ^ 64 ∧ word < 2 ^ 32 ∧
    unread.length = 4 ∧
    slice vol.src.content (vol.fragmentTableStart + idx / 512 * 8) 8 = some (leBytes 8 ptr) ∧
    MetaAt codecs vol ptr (idx % 512 * 16) (leBytes 8 start ++ leBytes 4 word ++ unread) ∧
    slice vol.src.content start bytes.length = some bytes ∧ DataStored codecs vol frag word bytes

/-- The data of a file: in blocks, or in blocks and a fragment. -/
inductive FileStored (start : ℕ) : List UInt8 → List ℕ → ℕ → ℕ → Prop
  | blocks {data : List UInt8} {words : List ℕ} {fragOff : ℕ}
      (hblocks : Blocks codecs vol start data 0 words) :
      FileStored start data words noFragment fragOff
  | tail {front tail frag : List UInt8} {words : List ℕ} {fragIdx fragOff : ℕ}
      (hblocks : Blocks codecs vol start front tail.length words) (hne : tail ≠ [])
      (htail : tail.length < vol.blockSize) (hidx : fragIdx < noFragment)
      (hfrag : FragmentStored codecs vol fragIdx frag)
      (hslice : slice frag fragOff tail.length = some tail) :
      FileStored start (front ++ tail) words fragIdx fragOff

variable {codecs vol}

theorem sizeMask_eq : sizeMask = 2 ^ 24 - 1 := rfl

theorem DataStored.word_bits {data bytes : List UInt8} {word : ℕ}
    (h : DataStored codecs vol data word bytes) :
    word &&& sizeMask = bytes.length ∧ bytes.length ≠ 0 ∧ word < 2 ^ 32 := by
  cases h with
  | plain hne hlen =>
    refine ⟨?_, Nat.ne_of_gt (List.length_pos_iff.mpr hne), by omega⟩
    rw [sizeMask_eq, Nat.and_two_pow_sub_one_eq_mod, Nat.add_mod_left, Nat.mod_eq_of_lt hlen]
  | packed hne hlen hdecode =>
    refine ⟨?_, Nat.ne_of_gt (List.length_pos_iff.mpr hne), by omega⟩
    rw [sizeMask_eq, Nat.and_two_pow_sub_one_eq_mod, Nat.mod_eq_of_lt hlen]

/-- A stored block is read back. -/
theorem DataStored.read {data bytes : List UInt8} {word start : ℕ}
    (h : DataStored codecs vol data word bytes)
    (hslice : slice vol.src.content start bytes.length = some bytes) :
    readDataBlock codecs vol start word = .ok data := by
  obtain ⟨hlen, hne, -⟩ := h.word_bits
  unfold readDataBlock
  dsimp only
  rw [hlen, if_neg hne, Source.readAt_eq_ok.mpr hslice, ok_bind, lift_self]
  have hflag : sizeUncompressed = 2 ^ 24 := rfl
  unfold unpack
  cases h with
  | plain _ hlt =>
    rw [if_pos]
    rw [hflag, Nat.and_two_pow, Nat.testBit_two_pow_add_eq, Nat.testBit_lt_two_pow hlt]
    decide
  | packed _ hlt hdecode =>
    have hzero : bytes.length &&& sizeUncompressed = 0 := by
      rw [hflag, Nat.and_two_pow, Nat.testBit_lt_two_pow hlt]
      rfl
    rw [if_neg (not_not.mpr hzero)]
    exact hdecode

theorem BlockAt.next_eq {start next word : ℕ} {data : List UInt8}
    (h : BlockAt codecs vol start data word next) :
    next = start + (word &&& sizeMask) ∧ word < 2 ^ 32 ∧ (start < 2 ^ 64 → next < 2 ^ 64) := by
  cases h with
  | sparse => exact ⟨by simp, by omega, fun h => h⟩
  | stored hslice hstored =>
    obtain ⟨hlen, -, hword⟩ := hstored.word_bits
    have hin := (slice_eq_some.mp hslice).1
    have hlt := vol.src.length_lt
    exact ⟨by rw [hlen], hword, fun _ => by omega⟩

theorem FragmentStored.read {idx : ℕ} {frag : List UInt8} (h : FragmentStored codecs vol idx frag) :
    readFragment codecs vol idx = .ok frag := by
  obtain ⟨ptr, start, word, bytes, unread, hptr, hstart, hword, hunread, htable, hmeta, hslice,
    hstored⟩ := h
  have hin := (slice_eq_some.mp htable).1
  have hlt := vol.src.length_lt
  have hat : u64 (vol.fragmentTableStart + idx / 512 * 8) = .ok _ := fits_eq_ok.mpr ⟨by omega, rfl⟩
  have hlen : (leBytes 8 start ++ leBytes 4 word ++ unread).length = 16 := by
    simp only [List.length_append, leBytes_length, hunread]
  have hspan := hmeta.span (n := 16) (by decide) (by omega)
  rw [List.take_of_length_le (by omega)] at hspan
  have hfield : leU64 (leBytes 8 start ++ leBytes 4 word ++ unread) 0 = .ok start := by
    refine @leAt_of_append 8 _ _ _ _ [] (leBytes 4 word ++ unread) ?_ rfl hstart
    simp only [List.nil_append, List.append_assoc]
  have hsize : leU32 (leBytes 8 start ++ leBytes 4 word ++ unread) 8 = .ok word :=
    @leAt_of_append 4 _ _ _ _ (leBytes 8 start) unread rfl (leBytes_length ..).symm hword
  unfold readFragment
  rw [hat, lift_ok_bind, Source.readAt_eq_ok.mpr htable, ok_bind, leNat_leBytes hptr, hspan, ok_bind,
    hfield, lift_ok_bind, hsize, lift_ok_bind]
  exact hstored.read hslice

variable {start tail : ℕ} {front : List UInt8} {words : List ℕ}

/-- A block that data or a tail follow is full. -/
theorem full_of_rest {a b c n : ℕ} (h : a = min n (a + b + c)) (hrest : 0 < b + c) : a = n := by
  omega

/-- How many blocks there are. -/
theorem Blocks.count (h : Blocks codecs vol start front tail words) :
    (tail ≠ 0 → front.length = words.length * vol.blockSize) ∧
      ∀ k, k < words.length ↔ k * vol.blockSize < front.length := by
  induction h with
  | nil => simp
  | @cons start next word tail data rest words hne hfull hblock hrest ih =>
    obtain ⟨ihTail, ihCount⟩ := ih
    have hpos := List.length_pos_iff.mpr hne
    rw [List.length_append, List.length_cons]
    constructor
    · intro htail
      rw [ihTail htail, full_of_rest hfull (by omega), Nat.succ_mul, Nat.add_comm]
    · intro k
      cases k with
      | zero => simp only [Nat.zero_mul, Nat.zero_lt_succ, true_iff]; omega
      | succ k =>
        rw [Nat.succ_lt_succ_iff, ihCount, Nat.succ_mul]
        rcases Nat.eq_zero_or_pos rest.length with hzero | hmore
        · rw [hzero]
          omega
        · have hdata := full_of_rest hfull (by omega)
          omega

/-- What block `k` is read as. -/
theorem Blocks.block (h : Blocks codecs vol start front tail words) {k word : ℕ}
    (hword : words[k]? = some word) :
    ((front.drop (k * vol.blockSize)).take vol.blockSize).length =
        partLen vol (front.length + tail) k ∧
      if word &&& sizeMask = 0 then
        (front.drop (k * vol.blockSize)).take vol.blockSize =
          List.replicate (partLen vol (front.length + tail) k) 0
      else readDataBlock codecs vol (blockStart start words k) word =
        .ok ((front.drop (k * vol.blockSize)).take vol.blockSize) := by
  induction h generalizing k with
  | nil => cases hword
  | @cons start next first tail data rest words hne hfull hblock hrest ih =>
    unfold partLen at ih ⊢
    cases k with
    | zero =>
      obtain rfl := Option.some.inj hword
      have htake : (data ++ rest).take vol.blockSize = data := by
        rcases Nat.eq_zero_or_pos rest.length with hzero | hmore
        · rw [List.length_eq_zero_iff.mp hzero, List.append_nil, List.take_of_length_le (by omega)]
        · rw [← full_of_rest hfull (by omega), List.take_left]
      rw [Nat.zero_mul, List.drop_zero, htake, List.length_append]
      refine ⟨by omega, ?_⟩
      cases hblock with
      | @sparse n =>
        rw [if_pos (by simp)]
        congr 1
        rw [List.length_replicate] at hfull
        rw [List.length_replicate]
        omega
      | stored hslice hstored =>
        obtain ⟨hlen, hnz, -⟩ := hstored.word_bits
        rw [if_neg (by omega)]
        exact hstored.read hslice
    | succ k =>
      rw [List.getElem?_cons_succ] at hword
      have hcount := (hrest.count.2 k).mp (List.getElem?_eq_some_iff.mp hword).1
      have hdata := full_of_rest hfull (by omega)
      have hdrop : (data ++ rest).drop ((k + 1) * vol.blockSize) = rest.drop (k * vol.blockSize) := by
        rw [Nat.succ_mul, Nat.add_comm, ← hdata, ← List.drop_drop, List.drop_left]
      have hpart : (data ++ rest).length + tail - (k + 1) * vol.blockSize =
          rest.length + tail - k * vol.blockSize := by
        rw [List.length_append, Nat.succ_mul]
        omega
      have hstart : blockStart start (first :: words) (k + 1) = blockStart next words k := by
        rw [hblock.next_eq.1]
        simp only [blockStart, List.take_succ_cons, List.map_cons, List.sum_cons, Nat.add_assoc]
      rw [hdrop, hpart, hstart]
      exact ih hword

theorem Blocks.blockOffsets (h : Blocks codecs vol start front tail words)
    (hstart : start < 2 ^ 64) :
    (∃ offsets, SquashFs.blockOffsets start words = .ok offsets) ∧ ∀ word ∈ words, word < 2 ^ 32 := by
  induction h with
  | nil => exact ⟨⟨[], rfl⟩, List.forall_mem_nil _⟩
  | @cons start next word tail data rest words hne hfull hblock hrest ih =>
    obtain ⟨hnext, hword, hlt⟩ := hblock.next_eq
    obtain ⟨⟨offsets, hoffsets⟩, hwords⟩ := ih (hlt hstart)
    refine ⟨⟨start :: offsets, ?_⟩, List.forall_mem_cons.mpr ⟨hword, hwords⟩⟩
    have hfits : u64 (start + (word &&& sizeMask)) = .ok next :=
      fits_eq_ok.mpr ⟨hnext ▸ hlt hstart, hnext.symm⟩
    rw [SquashFs.blockOffsets, hfits, ok_bind, hoffsets]
    rfl

variable {data : List UInt8} {file : FileBody}

/-- Each block of a file that is stored holds its part of the data. -/
theorem FileStored.part
    (h : FileStored codecs vol start data file.blockSizes file.fragIdx file.fragOff)
    {k : ℕ} (hk : k * vol.blockSize < data.length) :
    ∃ block, blockData codecs vol start data.length file k = .ok block ∧
      slice block 0 (partLen vol data.length k) =
        some ((data.drop (k * vol.blockSize)).take vol.blockSize) := by
  obtain ⟨words, offsets, fragIdx, fragOff⟩ := file
  dsimp only at h
  have hself : ∀ xs : List UInt8, slice xs 0 xs.length = some xs := fun xs =>
    slice_eq_some.mpr ⟨by omega, by rw [List.drop_zero, List.take_length]⟩
  have hbs := vol.blockSize_range.1
  -- a block of the list holds what stands there of the data in blocks
  have hlisted : ∀ {front : List UInt8} {tail word : ℕ}, Blocks codecs vol start front tail words →
      words[k]? = some word → ∃ block,
        blockData codecs vol start (front.length + tail) ⟨words, offsets, fragIdx, fragOff⟩ k =
          .ok block ∧ slice block 0 (partLen vol (front.length + tail) k) =
            some ((front.drop (k * vol.blockSize)).take vol.blockSize) := by
    intro front tail word hblocks hword
    obtain ⟨hlen, hread⟩ := hblocks.block hword
    refine ⟨(front.drop (k * vol.blockSize)).take vol.blockSize, ?_, ?_⟩
    · unfold blockData
      dsimp only
      rw [hword]
      dsimp only
      split at hread
      · rename_i hzero
        rw [if_pos hzero, ← hread]
      · rename_i hstored
        rw [if_neg hstored]
        exact hread
    · rw [← hlen]
      exact hself _
  cases h with
  | blocks hblocks =>
    have hin := (hblocks.count.2 k).mpr hk
    exact hlisted hblocks (List.getElem?_eq_getElem hin)
  | @tail front tail frag words fragIdx fragOff hblocks hne htail hidx hfrag hslice =>
    have hfront := hblocks.count.1 (Nat.ne_of_gt (List.length_pos_iff.mpr hne))
    rw [List.length_append] at hk ⊢
    rcases Nat.lt_or_ge k words.length with hin | hpast
    · obtain ⟨block, hblock, hpart⟩ := hlisted hblocks (List.getElem?_eq_getElem hin)
      refine ⟨block, hblock, ?_⟩
      have hle : k * vol.blockSize + vol.blockSize ≤ front.length := by
        rw [hfront, ← Nat.succ_mul]
        exact Nat.mul_le_mul_right _ hin
      rw [hpart, List.drop_append_of_le_length (by omega), List.take_append_of_le_length]
      rw [List.length_drop]
      omega
    · have hlast : k = words.length := by
        refine Nat.le_antisymm (Nat.le_of_lt_succ ?_) hpast
        refine Nat.lt_of_mul_lt_mul_right (a := vol.blockSize) ?_
        rw [Nat.succ_mul]
        omega
      have hpart : partLen vol (front.length + tail.length) k = tail.length := by
        unfold partLen
        rw [hlast, ← hfront]
        omega
      refine ⟨frag.drop fragOff, ?_, ?_⟩
      · unfold blockData
        dsimp only
        rw [hlast, List.getElem?_eq_none (Nat.le_refl _)]
        dsimp only
        rw [if_pos ⟨Nat.ne_of_lt hidx, rfl⟩, hfrag.read]
        rfl
      · obtain ⟨hin, hbytes⟩ := slice_eq_some.mp hslice
        rw [hpart, hlast, ← hfront, List.drop_left, List.take_of_length_le (by omega)]
        refine slice_eq_some.mpr ⟨?_, ?_⟩
        · rw [List.length_drop]
          omega
        · rw [List.drop_zero]
          exact hbytes

theorem FileStored.contentAt
    (h : FileStored codecs vol start data file.blockSizes file.fragIdx file.fragOff) {i : ℕ}
    (hi : i < data.length) : SquashFs.contentAt codecs vol start data.length file i = data[i]? := by
  have hbs := vol.blockSize_range.1
  have hsplit := Nat.div_add_mod' i vol.blockSize
  have hmod := Nat.mod_lt i hbs
  obtain ⟨block, hblock, hslice⟩ := h.part (k := i / vol.blockSize) (by omega)
  unfold SquashFs.contentAt
  rw [hblock]
  dsimp only
  have hin : i % vol.blockSize < partLen vol data.length (i / vol.blockSize) := by
    unfold partLen
    omega
  have hbyte := slice_getElem? hslice hin
  rw [Nat.zero_add, List.getElem?_take_of_lt hmod, List.getElem?_drop, hsplit] at hbyte
  exact hbyte.symm

/-- A file that is stored is read in windows. -/
theorem FileStored.readFile
    (h : FileStored codecs vol start data file.blockSizes file.fragIdx file.fragOff)
    (hoffsets : SquashFs.blockOffsets start file.blockSizes = .ok file.blockOffsets)
    (hsize : data.length < 2 ^ 63) {buf : List UInt8} (hbuf : buf.length < bufferBound) (off : ℕ) :
    SquashFs.readFile codecs vol data.length file off buf = .ok (windowOf data off buf) := by
  unfold SquashFs.readFile
  by_cases hpast : off ≥ data.length
  · rw [if_pos hpast, windowOf_past hpast]
    rfl
  · unfold bufferBound at hbuf
    have hasked : u64 (off + buf.length) = .ok _ := fits_eq_ok.mpr ⟨by omega, rfl⟩
    rw [if_neg hpast, hasked, lift_ok_bind]
    dsimp only
    have hwindow : min data.length (off + buf.length) - off =
        min buf.length (data.length - off) := by omega
    rcases readBlocks_content codecs vol hoffsets (by omega)
      (show off ≤ min data.length (off + buf.length) by omega) (Nat.min_le_left _ _) [] with
      ⟨bytes, hread, hlen, hbytes⟩ | ⟨e, k, -, hmeets, hunreadable⟩
    · have hdata : bytes = (data.drop off).take (min buf.length (data.length - off)) := by
        apply List.ext_getElem?
        intro i
        rcases Nat.lt_or_ge i bytes.length with hi | hi
        · rw [hbytes i (by omega), h.contentAt (by omega), List.getElem?_take_of_lt (by omega),
            List.getElem?_drop]
        · rw [List.getElem?_eq_none hi, List.getElem?_eq_none]
          rw [List.length_take, List.length_drop]
          omega
      rw [hread, List.nil_append, ok_bind, hwindow, windowOf_eq rfl, hdata]
      rfl
    · have hk : k * vol.blockSize < data.length := Nat.lt_of_lt_of_le hmeets.2 (Nat.min_le_left _ _)
      obtain ⟨block, hblock, hslice⟩ := h.part hk
      refine absurd ?_ (hunreadable ((data.drop (k * vol.blockSize)).take vol.blockSize))
      unfold filePart
      rw [hblock, ok_bind, hslice]
      rfl

end Data

/-- What every inode starts with, behind its type. -/
structure InodeHead where
  mode : UInt16
  uid : UInt16
  gid : UInt16
  mtime : UInt32
  number : UInt32

def InodeHead.fields (head : InodeHead) (itype : ℕ) : List (ℕ × ℕ) :=
  [(2, itype), (2, head.mode.toNat), (2, head.uid.toNat), (2, head.gid.toNat),
    (4, head.mtime.toNat), (4, head.number.toNat)]

namespace InodeHead

variable (head : InodeHead)

def basicDir (start links : UInt32) (size offset : UInt16) (parent : UInt32) : List (ℕ × ℕ) :=
  head.fields 1 ++ [(4, start.toNat), (4, links.toNat), (2, size.toNat), (2, offset.toNat),
    (4, parent.toNat)]

def extendedDir (links size start parent : UInt32) (indexes offset : UInt16) (xattr : UInt32) :
    List (ℕ × ℕ) :=
  head.fields 8 ++ [(4, links.toNat), (4, size.toNat), (4, start.toNat), (4, parent.toNat),
    (2, indexes.toNat), (2, offset.toNat), (4, xattr.toNat)]

def basicFile (start fragIdx fragOff size : UInt32) : List (ℕ × ℕ) :=
  head.fields 2 ++ [(4, start.toNat), (4, fragIdx.toNat), (4, fragOff.toNat), (4, size.toNat)]

def extendedFile (start size sparse : UInt64) (links fragIdx fragOff xattr : UInt32) :
    List (ℕ × ℕ) :=
  head.fields 9 ++ [(8, start.toNat), (8, size.toNat), (8, sparse.toNat), (4, links.toNat),
    (4, fragIdx.toNat), (4, fragOff.toNat), (4, xattr.toNat)]

/-- The target follows. -/
def link (itype : ℕ) (links : UInt32) (size : ℕ) : List (ℕ × ℕ) :=
  head.fields itype ++ [(4, links.toNat), (4, size)]

end InodeHead

section Inodes

variable {ι : Type} (codecs : Codecs ρ) (vol : Volume) (place : ι → ℕ)

/-- The listing of a directory stands in the metadata, with a reference for each entry. -/
def ListingAt (absBlock offset size : ℕ) (entries : List (Str × ι)) : Prop :=
  ∃ groups : List Group, size = (encodeListing groups).length + 3 ∧
    (encodeListing groups).length ≤ maxBootFileBytes ∧
    MetaAt codecs vol absBlock offset (encodeListing groups) ∧
    groups.flatMap Group.listing = entries.map fun entry => (entry.1, place entry.2)

/-- The bytes of an inode. -/
inductive InodeBytes : Item Str (List UInt8) ι → List UInt8 → Prop
  | dir {entries : List (Str × ι)} (head : InodeHead) (start links : UInt32) (size offset : UInt16)
      (parent : UInt32) (hlisting : ListingAt codecs vol place
        (vol.directoryTableStart + start.toNat) offset.toNat size.toNat entries) :
      InodeBytes (.dir entries) (encodeFields (head.basicDir start links size offset parent))
  | extDir {entries : List (Str × ι)} (head : InodeHead) (links size start parent : UInt32)
      (indexes offset : UInt16) (xattr : UInt32) (hlisting : ListingAt codecs vol place
        (vol.directoryTableStart + start.toNat) offset.toNat size.toNat entries) :
      InodeBytes (.dir entries)
        (encodeFields (head.extendedDir links size start parent indexes offset xattr))
  | file {data : List UInt8} {words : List ℕ} (head : InodeHead)
      (start fragIdx fragOff size : UInt32) (hsize : size.toNat = data.length)
      (hcap : 56 + words.length * 4 ≤ maxBootFileBytes)
      (hstored : FileStored codecs vol start.toNat data words fragIdx.toNat fragOff.toNat) :
      InodeBytes (.file data)
        (encodeFields (head.basicFile start fragIdx fragOff size ++ Bytes.words 4 words))
  | extFile {data : List UInt8} {words : List ℕ} (head : InodeHead) (start size sparse : UInt64)
      (links fragIdx fragOff xattr : UInt32) (hsize : size.toNat = data.length)
      (hlt : data.length < 2 ^ 63) (hcap : 56 + words.length * 4 ≤ maxBootFileBytes)
      (hstored : FileStored codecs vol start.toNat data words fragIdx.toNat fragOff.toNat) :
      InodeBytes (.file data) (encodeFields
        (head.extendedFile start size sparse links fragIdx fragOff xattr ++ Bytes.words 4 words))
  | link {target : List UInt8} {itype : ℕ} (head : InodeHead) (links : UInt32)
      (htype : itype = 3 ∨ itype = 10) (hcap : target.length ≤ maxBootFileBytes - 24) :
      InodeBytes (.link target) (encodeFields (head.link itype links target.length) ++ target)
  | special {itype : ℕ} (head : InodeHead) (hlt : itype < 2 ^ 16)
      (htype : itype ∉ [1, 2, 3, 8, 9, 10]) :
      InodeBytes .special (encodeFields (head.fields itype))

/-- An inode that stands for the item. -/
inductive InodeOf : Item Str (List UInt8) ι → SquashInode → Prop
  | dir {entries : List (Str × ι)} {absBlock offset size : ℕ}
      (hentries : dirEntries codecs vol absBlock offset size =
        .ok (entries.map fun entry => (entry.1, place entry.2))) :
      InodeOf (.dir entries) ⟨.directory, size, .dir absBlock offset size⟩
  | file {data : List UInt8} {file : FileBody}
      (hread : ∀ off buf, buf.length < bufferBound →
        readFile codecs vol data.length file off buf = .ok (windowOf data off buf)) :
      InodeOf (.file data) ⟨.regular, data.length, .file file⟩
  | link {target : List UInt8} : InodeOf (.link target) ⟨.symlink, target.length, .symlink target⟩
  | special : InodeOf .special ⟨.other, 0, .other⟩

variable {codecs vol place}

theorem MetaAt.fields {absBlock offset n : ℕ} {bytes : List UInt8} {fields : List (ℕ × ℕ)}
    (h : MetaAt codecs vol absBlock offset bytes) (hfields : encodeFields fields <+: bytes)
    (hn : fieldsWidth fields = n) (hcap : n ≤ maxBootFileBytes) :
    readMetaSpan codecs vol absBlock offset n = .ok (encodeFields fields) := by
  obtain ⟨post, rfl⟩ := hfields
  rw [h.span hcap, List.take_left' (by rw [encodeFields_length, hn])]
  rw [List.length_append, encodeFields_length, hn]
  exact Nat.le_add_right _ _

theorem ListingAt.entries {absBlock offset size : ℕ} {entries : List (Str × ι)}
    (h : ListingAt codecs vol place absBlock offset size entries) :
    dirEntries codecs vol absBlock offset size =
      .ok (entries.map fun entry => (entry.1, place entry.2)) := by
  obtain ⟨groups, rfl, hcap, hmeta, hgroups⟩ := h
  have hspan := hmeta.span hcap (Nat.le_refl _)
  unfold dirEntries
  rw [Nat.add_sub_cancel, hspan, ok_bind, List.take_length, ← hgroups]
  exact @listingFrom_encode groups [] 0

theorem FileStored.count {start fragIdx fragOff : ℕ} {data : List UInt8} {words : List ℕ}
    (h : FileStored codecs vol start data words fragIdx fragOff) :
    blockCount vol data.length fragIdx = words.length := by
  have hbs := vol.blockSize_range.1
  unfold blockCount
  cases h with
  | blocks hblocks =>
    rw [if_neg (not_not.mpr rfl)]
    apply Nat.le_antisymm
    · refine Nat.le_of_not_lt fun hlt => ?_
      have hin := (lt_divCeil_iff hbs).mp hlt
      exact absurd ((hblocks.count.2 words.length).mpr hin) (lt_irrefl _)
    · refine Nat.le_of_not_lt fun hlt => ?_
      have hin := (hblocks.count.2 _).mp hlt
      exact absurd ((lt_divCeil_iff hbs).mpr hin) (lt_irrefl _)
  | @tail front tail frag words fragIdx fragOff hblocks hne htail hidx =>
    have hfront := hblocks.count.1 (Nat.ne_of_gt (List.length_pos_iff.mpr hne))
    rw [if_pos (Nat.ne_of_lt hidx), List.length_append, hfront, Nat.mul_comm,
      Nat.mul_add_div hbs, Nat.div_eq_of_lt htail, Nat.add_zero]

variable (place) in
/-- The inode of a file is read behind its header, with the sizes of its blocks. -/
theorem parseFile_stored {abs off headLen start fragIdx fragOff : ℕ} {data bytes : List UInt8}
    {words : List ℕ} {fields : List (ℕ × ℕ)} (h : MetaAt codecs vol abs off bytes)
    (hbytes : bytes = encodeFields (fields ++ Bytes.words 4 words))
    (hfields : fieldsWidth fields = headLen) (hcap : headLen + words.length * 4 ≤ maxBootFileBytes)
    (hstart : start < 2 ^ 64) (hsize : data.length < 2 ^ 63)
    (hstored : FileStored codecs vol start data words fragIdx fragOff) :
    ∃ inode, parseFile codecs vol abs off headLen start data.length fragIdx fragOff = .ok inode ∧
      InodeOf codecs vol place (.file data) inode := by
  obtain ⟨⟨offsets, hoffsets⟩, hwords⟩ : (∃ offsets, blockOffsets start words = .ok offsets) ∧
      ∀ word ∈ words, word < 2 ^ 32 := by
    cases hstored with
    | blocks hblocks => exact hblocks.blockOffsets hstart
    | tail hblocks => exact hblocks.blockOffsets hstart
  have hwidth : fieldsWidth (fields ++ Bytes.words 4 words) = headLen + words.length * 4 := by
    rw [fieldsWidth_append, fieldsWidth_words, hfields]
  have hlen : u64 (headLen + words.length * 4) = .ok (headLen + words.length * 4) :=
    fits_eq_ok.mpr ⟨Nat.lt_of_le_of_lt hcap (by decide), rfl⟩
  have hsizes : (List.range words.length).mapM (fun i =>
      leU32 (encodeFields (fields ++ Bytes.words 4 words)) (headLen + i * 4)) = .ok words := by
    have hword : ∀ i ∈ List.range words.length,
        leU32 (encodeFields (fields ++ Bytes.words 4 words)) (headLen + i * 4) =
          .ok (words.getD i 0) := by
      intro i hi
      have hin := List.mem_range.mp hi
      rw [List.getD_eq_getElem _ _ hin]
      exact leAt_words List.prefix_rfl (List.getElem?_eq_getElem hin)
        (hwords _ (List.getElem_mem hin)) hfields
    rw [mapM_eq_ok_map hword]
    congr 1
    apply List.ext_getElem
    · rw [List.length_map, List.length_range]
    · intro i hi hin
      rw [List.getElem_map, List.getElem_range, List.getD_eq_getElem _ _ hin]
  refine ⟨⟨.regular, data.length, .file ⟨words, offsets, fragIdx, fragOff⟩⟩, ?_, .file ?_⟩
  · unfold parseFile
    dsimp only
    rw [hstored.count, hlen, lift_ok_bind,
      h.fields (hbytes ▸ List.prefix_rfl) hwidth hcap, ok_bind, hsizes, lift_ok_bind, hoffsets]
    rfl
  · intro off buf hbuf
    let file : FileBody := ⟨words, offsets, fragIdx, fragOff⟩
    have hfile : FileStored codecs vol start data file.blockSizes file.fragIdx file.fragOff := hstored
    exact hfile.readFile hoffsets hsize hbuf off

variable {abs off : ℕ} {head : InodeHead}

theorem parseBasicDir_stored {entries : List (Str × ι)} {start links parent : UInt32}
    {size offset : UInt16}
    (h : MetaAt codecs vol abs off (encodeFields (head.basicDir start links size offset parent)))
    (hlisting : ListingAt codecs vol place (vol.directoryTableStart + start.toNat) offset.toNat
      size.toNat entries) :
    ∃ inode, parseBasicDir codecs vol abs off = .ok inode ∧
      InodeOf codecs vol place (.dir entries) inode := by
  have habs : u64 (vol.directoryTableStart + start.toNat) =
      .ok (vol.directoryTableStart + start.toNat) := by
    obtain ⟨groups, -, -, hmeta, -⟩ := hlisting
    exact fits_eq_ok.mpr ⟨hmeta.lt, rfl⟩
  refine ⟨_, ?_, .dir hlisting.entries⟩
  unfold parseBasicDir
  rw [h.fields (n := 32) List.prefix_rfl rfl (by decide), ok_bind, leU16,
    leAt_encodeFields (k := 8) (o := 24) List.prefix_rfl rfl size.toNat_lt rfl, lift_ok_bind, leU32,
    leAt_encodeFields (k := 6) (o := 16) List.prefix_rfl rfl start.toNat_lt rfl, lift_ok_bind, habs,
    lift_ok_bind, leAt_encodeFields (k := 9) (o := 26) List.prefix_rfl rfl offset.toNat_lt rfl]
  rfl

theorem parseExtendedDir_stored {entries : List (Str × ι)}
    {links size start parent xattr : UInt32} {indexes offset : UInt16}
    (h : MetaAt codecs vol abs off
      (encodeFields (head.extendedDir links size start parent indexes offset xattr)))
    (hlisting : ListingAt codecs vol place (vol.directoryTableStart + start.toNat) offset.toNat
      size.toNat entries) :
    ∃ inode, parseExtendedDir codecs vol abs off = .ok inode ∧
      InodeOf codecs vol place (.dir entries) inode := by
  have habs : u64 (vol.directoryTableStart + start.toNat) =
      .ok (vol.directoryTableStart + start.toNat) := by
    obtain ⟨groups, -, -, hmeta, -⟩ := hlisting
    exact fits_eq_ok.mpr ⟨hmeta.lt, rfl⟩
  refine ⟨_, ?_, .dir hlisting.entries⟩
  unfold parseExtendedDir
  rw [h.fields (n := 40) List.prefix_rfl rfl (by decide), ok_bind, leU32,
    leAt_encodeFields (k := 7) (o := 20) List.prefix_rfl rfl size.toNat_lt rfl, lift_ok_bind,
    leAt_encodeFields (k := 8) (o := 24) List.prefix_rfl rfl start.toNat_lt rfl, lift_ok_bind, habs,
    lift_ok_bind, leU16,
    leAt_encodeFields (k := 11) (o := 34) List.prefix_rfl rfl offset.toNat_lt rfl]
  rfl

theorem parseBasicFile_stored {data : List UInt8} {words : List ℕ}
    {start fragIdx fragOff size : UInt32}
    (h : MetaAt codecs vol abs off
      (encodeFields (head.basicFile start fragIdx fragOff size ++ Bytes.words 4 words)))
    (hsize : size.toNat = data.length) (hcap : 56 + words.length * 4 ≤ maxBootFileBytes)
    (hstored : FileStored codecs vol start.toNat data words fragIdx.toNat fragOff.toNat) :
    ∃ inode, parseBasicFile codecs vol abs off = .ok inode ∧
      InodeOf codecs vol place (.file data) inode := by
  have hstart := start.toNat_lt
  have hlt := size.toNat_lt
  have hfront : encodeFields (head.basicFile start fragIdx fragOff size) <+:
      encodeFields (head.basicFile start fragIdx fragOff size ++ Bytes.words 4 words) := by
    rw [encodeFields_append]
    exact List.prefix_append _ _
  obtain ⟨inode, hinode, hof⟩ := parseFile_stored place h rfl
    (show fieldsWidth (head.basicFile start fragIdx fragOff size) = 32 from rfl) (by omega)
    (by omega) (by omega) hstored
  refine ⟨inode, ?_, hof⟩
  unfold parseBasicFile
  rw [h.fields (n := 32) hfront rfl (by decide), ok_bind, leU32,
    leAt_encodeFields (k := 6) (o := 16) List.prefix_rfl rfl start.toNat_lt rfl, lift_ok_bind,
    leAt_encodeFields (k := 7) (o := 20) List.prefix_rfl rfl fragIdx.toNat_lt rfl, lift_ok_bind,
    leAt_encodeFields (k := 8) (o := 24) List.prefix_rfl rfl fragOff.toNat_lt rfl, lift_ok_bind,
    leAt_encodeFields (k := 9) (o := 28) List.prefix_rfl rfl size.toNat_lt rfl, lift_ok_bind, hsize]
  exact hinode

theorem parseExtendedFile_stored {data : List UInt8} {words : List ℕ}
    {start size sparse : UInt64} {links fragIdx fragOff xattr : UInt32}
    (h : MetaAt codecs vol abs off (encodeFields
      (head.extendedFile start size sparse links fragIdx fragOff xattr ++ Bytes.words 4 words)))
    (hsize : size.toNat = data.length) (hlt : data.length < 2 ^ 63)
    (hcap : 56 + words.length * 4 ≤ maxBootFileBytes)
    (hstored : FileStored codecs vol start.toNat data words fragIdx.toNat fragOff.toNat) :
    ∃ inode, parseExtendedFile codecs vol abs off = .ok inode ∧
      InodeOf codecs vol place (.file data) inode := by
  have hfront : encodeFields (head.extendedFile start size sparse links fragIdx fragOff xattr) <+:
      encodeFields (head.extendedFile start size sparse links fragIdx fragOff xattr ++
        Bytes.words 4 words) := by
    rw [encodeFields_append]
    exact List.prefix_append _ _
  obtain ⟨inode, hinode, hof⟩ := parseFile_stored place h rfl
    (show fieldsWidth (head.extendedFile start size sparse links fragIdx fragOff xattr) = 56 from rfl)
    hcap start.toNat_lt hlt hstored
  refine ⟨inode, ?_, hof⟩
  unfold parseExtendedFile
  rw [h.fields (n := 56) hfront rfl (by decide), ok_bind, leU64,
    leAt_encodeFields (k := 6) (o := 16) List.prefix_rfl rfl start.toNat_lt rfl, lift_ok_bind,
    leAt_encodeFields (k := 7) (o := 24) List.prefix_rfl rfl size.toNat_lt rfl, lift_ok_bind, leU32,
    leAt_encodeFields (k := 10) (o := 44) List.prefix_rfl rfl fragIdx.toNat_lt rfl, lift_ok_bind,
    leAt_encodeFields (k := 11) (o := 48) List.prefix_rfl rfl fragOff.toNat_lt rfl, lift_ok_bind, hsize]
  exact hinode

theorem parseSymlink_stored {target : List UInt8} {itype : ℕ} {links : UInt32}
    (h : MetaAt codecs vol abs off
      (encodeFields (head.link itype links target.length) ++ target))
    (hcap : target.length ≤ maxBootFileBytes - 24) :
    parseSymlink codecs vol abs off = .ok ⟨.symlink, target.length, .symlink target⟩ := by
  have hmax : maxBootFileBytes = 2 ^ 29 := rfl
  have hwidth : (encodeFields (head.link itype links target.length)).length = 24 :=
    encodeFields_length _
  have hsize : checkedFullReadLen target.length = .ok target.length :=
    checkedFullReadLen_eq_ok.mpr ⟨by omega, rfl⟩
  have hfull := h.span (n := 24 + target.length) (by omega)
    (by rw [List.length_append, hwidth])
  rw [List.take_of_length_le (by rw [List.length_append, hwidth])] at hfull
  have htarget : slice (encodeFields (head.link itype links target.length) ++ target) 24
      target.length = some target :=
    slice_of_append (List.append_nil _).symm hwidth.symm rfl
  unfold parseSymlink
  rw [h.fields (n := 24) (List.prefix_append _ _) rfl (by decide), ok_bind, leU32,
    leAt_encodeFields (k := 7) (o := 20) List.prefix_rfl rfl (by omega) rfl, lift_ok_bind, hsize,
    lift_ok_bind, hfull, ok_bind, htarget]
  rfl

/-- An inode is parsed by the type that stands in front. -/
theorem InodeBytes.parseTyped {item : Item Str (List UInt8) ι} {bytes : List UInt8}
    (hbytes : InodeBytes codecs vol place item bytes) (h : MetaAt codecs vol abs off bytes) :
    ∃ (head : InodeHead) (itype : ℕ), itype < 2 ^ 16 ∧ encodeFields (head.fields itype) <+: bytes ∧
      ∃ inode, SquashFs.parseTyped codecs vol itype abs off = .ok inode ∧
        InodeOf codecs vol place item inode := by
  have hfront : ∀ (head : InodeHead) (itype : ℕ) (more : List (ℕ × ℕ)),
      encodeFields (head.fields itype) <+: encodeFields (head.fields itype ++ more) := by
    intro head itype more
    rw [encodeFields_append]
    exact List.prefix_append _ _
  unfold SquashFs.parseTyped
  cases hbytes with
  | dir head _ _ _ _ _ hlisting =>
    exact ⟨head, 1, by decide, hfront head 1 _, parseBasicDir_stored h hlisting⟩
  | extDir head _ _ _ _ _ _ _ hlisting =>
    exact ⟨head, 8, by decide, hfront head 8 _, parseExtendedDir_stored h hlisting⟩
  | file head start fragIdx fragOff size hsize hcap hstored =>
    refine ⟨head, 2, by decide, ?_, parseBasicFile_stored h hsize hcap hstored⟩
    rw [InodeHead.basicFile, List.append_assoc]
    exact hfront head 2 _
  | extFile head start size sparse links fragIdx fragOff xattr hsize hlt hcap hstored =>
    refine ⟨head, 9, by decide, ?_, parseExtendedFile_stored h hsize hlt hcap hstored⟩
    rw [InodeHead.extendedFile, List.append_assoc]
    exact hfront head 9 _
  | @link target itype head links htype hcap =>
    refine ⟨head, itype, by omega, (hfront head itype _).trans (List.prefix_append _ _),
      ⟨.symlink, target.length, .symlink target⟩, ?_, .link⟩
    rw [if_neg (by omega), if_neg (by omega), if_neg (by omega), if_neg (by omega), if_pos htype]
    exact parseSymlink_stored h hcap
  | @special itype head hlt htype =>
    simp only [List.mem_cons, List.not_mem_nil, or_false, not_or] at htype
    obtain ⟨h1, h2, h3, h8, h9, h10⟩ := htype
    refine ⟨head, itype, hlt, List.prefix_rfl, ⟨.other, 0, .other⟩, ?_, .special⟩
    rw [if_neg h1, if_neg h8, if_neg h2, if_neg h9, if_neg (by omega)]
    rfl

/-- An inode is parsed as it is stored. -/
theorem parseInode_stored {item : Item Str (List UInt8) ι} {bytes : List UInt8} {inodeRef : ℕ}
    (h : MetaAt codecs vol (vol.inodeTableStart + inodeRef >>> 16) (inodeRef &&& 0xFFFF) bytes)
    (hbytes : InodeBytes codecs vol place item bytes) :
    ∃ inode, parseInode codecs vol inodeRef = .ok inode ∧ InodeOf codecs vol place item inode := by
  obtain ⟨head, itype, hlt, hhead, inode, hinode, hof⟩ := hbytes.parseTyped h
  have habs : u64 (vol.inodeTableStart + inodeRef >>> 16) =
      .ok (vol.inodeTableStart + inodeRef >>> 16) := fits_eq_ok.mpr ⟨h.lt, rfl⟩
  refine ⟨inode, ?_, hof⟩
  unfold parseInode
  rw [habs, lift_ok_bind]
  dsimp only
  rw [h.fields (n := 16) hhead rfl (by decide), ok_bind, leU16,
    leAt_encodeFields (k := 0) (o := 0) List.prefix_rfl rfl hlt rfl]
  exact hinode

end Inodes

/-- The superblock. -/
structure Superblock where
  inodes : UInt32
  mtime : UInt32
  blockSize : UInt32
  fragments : UInt32
  compression : UInt16
  blockLog : UInt16
  flags : UInt16
  ids : UInt16
  major : UInt16
  minor : UInt16
  root : UInt64
  used : UInt64
  idTable : UInt64
  xattrTable : UInt64
  inodeTable : UInt64
  directoryTable : UInt64
  fragmentTable : UInt64
  exportTable : UInt64

def Superblock.fields (sb : Superblock) : List (ℕ × ℕ) :=
  [(4, magic), (4, sb.inodes.toNat), (4, sb.mtime.toNat), (4, sb.blockSize.toNat),
    (4, sb.fragments.toNat), (2, sb.compression.toNat), (2, sb.blockLog.toNat),
    (2, sb.flags.toNat), (2, sb.ids.toNat), (2, sb.major.toNat), (2, sb.minor.toNat),
    (8, sb.root.toNat), (8, sb.used.toNat), (8, sb.idTable.toNat), (8, sb.xattrTable.toNat),
    (8, sb.inodeTable.toNat), (8, sb.directoryTable.toNat), (8, sb.fragmentTable.toNat),
    (8, sb.exportTable.toNat)]

/-- What the mount reads of the superblock. -/
structure Superblock.Reads (sb : Superblock) (bytes : List UInt8) : Prop where
  length : bytes.length = 96
  magic : leU32 bytes 0 = .ok magic
  blockSize : leU32 bytes 12 = .ok sb.blockSize.toNat
  compression : leU16 bytes 20 = .ok sb.compression.toNat
  root : leU64 bytes 32 = .ok sb.root.toNat
  inodeTable : leU64 bytes 64 = .ok sb.inodeTable.toNat
  directoryTable : leU64 bytes 72 = .ok sb.directoryTable.toNat
  fragmentTable : leU64 bytes 80 = .ok sb.fragmentTable.toNat

theorem Superblock.reads (sb : Superblock) : sb.Reads (encodeFields sb.fields) := by
  have hat : ∀ {k o width n : ℕ} {what : String}, sb.fields[k]? = some (width, n) →
      n < 256 ^ width → fieldsWidth (sb.fields.take k) = o →
      leAt width what (encodeFields sb.fields) o = .ok n :=
    fun hk hn ho => leAt_encodeFields List.prefix_rfl hk hn ho
  have hlt : SquashFs.magic < 256 ^ 4 := by decide
  refine ⟨?_, hat (k := 0) rfl hlt ?_, hat (k := 3) rfl sb.blockSize.toNat_lt ?_,
    hat (k := 5) rfl sb.compression.toNat_lt ?_, hat (k := 11) rfl sb.root.toNat_lt ?_,
    hat (k := 15) rfl sb.inodeTable.toNat_lt ?_, hat (k := 16) rfl sb.directoryTable.toNat_lt ?_,
    hat (k := 17) rfl sb.fragmentTable.toNat_lt ?_⟩
  · simp only [encodeFields_length, Superblock.fields, fieldsWidth]
  · rfl
  all_goals simp only [Superblock.fields, List.take_succ_cons, List.take_zero, fieldsWidth]

section Volumes

variable {ι : Type} (codecs : Codecs ρ) (src : Source) (g : Files ι) (place : ι → ℕ)

/-- The volume of a superblock stores the files, each with its inode at its reference. -/
structure Stores (sb : Superblock) (vol : Volume) : Prop where
  superblock : encodeFields sb.fields <+: src.content
  vol_src : vol.src = src
  codec : codecOf sb.compression.toNat = .ok vol.codec
  blockSize : vol.blockSize = sb.blockSize.toNat
  inodeTable : vol.inodeTableStart = sb.inodeTable.toNat
  directoryTable : vol.directoryTableStart = sb.directoryTable.toNat
  fragmentTable : vol.fragmentTableStart = sb.fragmentTable.toNat
  root : place g.root = sb.root.toNat
  files : ∀ i, ∃ bytes,
    MetaAt codecs vol (vol.inodeTableStart + place i >>> 16) (place i &&& 0xFFFF) bytes ∧
      InodeBytes codecs vol place (g.item i) bytes

variable {codecs src g place} {sb : Superblock} {vol : Volume}

theorem Stores.openVolume (h : Stores codecs src g place sb vol) :
    SquashFs.openVolume src = .ok (vol, place g.root) := by
  have hreads := sb.reads
  obtain ⟨rest, hrest⟩ := h.superblock
  have hin : 96 ≤ src.len := by
    unfold Source.len
    rw [← hrest, List.length_append, hreads.length]
    exact Nat.le_add_right _ _
  have hread : src.readAt 0 96 = .ok (encodeFields sb.fields) := by
    refine Source.readAt_eq_ok.mpr (slice_eq_some.mpr ⟨by unfold Source.len at hin; omega, ?_⟩)
    rw [← hrest, List.drop_zero, List.take_left' hreads.length]
  have hrange := vol.blockSize_range
  rw [h.blockSize] at hrange
  have hfound : ¬(magic ≠ magic) := fun hne => hne rfl
  unfold SquashFs.openVolume
  rw [if_neg (by omega), hread, ok_bind, hreads.magic, lift_ok_bind, if_neg hfound,
    hreads.compression, lift_ok_bind, h.codec, lift_ok_bind, hreads.blockSize, lift_ok_bind,
    dif_pos hrange, hreads.root, lift_ok_bind, hreads.inodeTable, lift_ok_bind,
    hreads.directoryTable, lift_ok_bind, hreads.fragmentTable, lift_ok_bind, h.root]
  obtain ⟨vsrc, codec, blockSize, hrange', it, dt, ft⟩ := vol
  obtain ⟨-, rfl, -, rfl, rfl, rfl, rfl, -, -⟩ := h
  rfl

/-- Every file has an inode that stands for it. -/
theorem Stores.inodes (h : Stores codecs src g place sb vol) :
    ∃ inode : ι → SquashInode, ∀ i, parseInode codecs vol (place i) = .ok (inode i) ∧
      InodeOf codecs vol place (g.item i) (inode i) := by
  choose bytes hmeta hbytes using h.files
  choose inode hparse hof using fun i => parseInode_stored (hmeta i) (hbytes i)
  exact ⟨inode, fun i => ⟨hparse i, hof i⟩⟩

theorem exec_inode_ok {s : SquashFs} {node : NodeId} {found : SquashInode}
    (h : s.table.inode node = .ok found) : exec (SquashFs.inode node) s = (.ok found, s) := by
  rw [exec_inode, h]

/-- What is read of a file leaves the volume and the table as they are. -/
theorem reads : NodeTable.Reads (frontend codecs) where
  metadata P node := by
    refine Preserves.bind (preserves_reading P _) ?_
    exact fun _ => Preserves.pure _ _
  readAt P node off buf := by
    refine Preserves.bind (preserves_reading P _) ?_
    intro inode
    split
    · exact Preserves.bind (Preserves.get _) fun _ => Preserves.lift _ _
    · exact Preserves.ite (Preserves.throw _ _) (Preserves.throw _ _)
  readLink P node := by
    refine Preserves.bind (preserves_reading P _) ?_
    intro inode
    split
    · exact Preserves.pure _ _
    · exact Preserves.pure _ _

/-- The inodes that are stored are served. -/
theorem stored {inode : ι → SquashInode}
    (h : ∀ i, parseInode codecs vol (place i) = .ok (inode i) ∧
      InodeOf codecs vol place (g.item i) (inode i)) :
    (nodeTable codecs).Stored (frontend codecs) vol g place inode where
  same {i j} hij := by
    have hi := (h i).1
    rw [hij, (h j).1] at hi
    exact (Except.ok.inj hi).symm
  kind i := by
    have hof := (h i).2
    change (inode i).kind = _
    unfold Files.kind
    generalize g.item i = item, inode i = found at hof
    cases hof with
    | dir => rfl
    | file => rfl
    | link => rfl
    | special => rfl
  records {i entries} hitem := by
    have hof := (h i).2
    rw [hitem] at hof
    generalize inode i = found at hof
    cases hof with
    | dir hentries =>
      refine ⟨_, hentries, List.forall₂_map_right_iff.mpr (List.forall₂_same.mpr ?_)⟩
      intro entry _
      exact ⟨rfl, rfl, (h entry.2).1⟩
  no_records {i} found hother := by
    have hof := (h i).2
    unfold Files.kind at hother
    generalize g.item i = item, inode i = node at hof hother
    intro hfound
    cases hof with
    | dir => exact hother rfl
    | file => cases hfound
    | link => cases hfound
    | special => cases hfound
  root _ _ := rfl
  reads := reads
  readDir := readDir_eq codecs
  lookup := .inl fun dir name => lookup_eq codecs dir name
  metadata {s node i} _ hnode := by
    have hof := (h i).2
    refine ⟨⟨(inode i).kind, (inode i).size, 0⟩, ?_, ?_⟩
    · change (exec (metadata node) s).1 = _
      unfold metadata
      rw [exec_bind_of_ok (exec_inode_ok hnode)]
      rfl
    · constructor
      · unfold Files.kind
        generalize g.item i = item, inode i = found at hof
        cases hof <;> rfl
      · intro data hitem
        rw [hitem] at hof
        generalize inode i = found at hof
        cases hof
        rfl
  readAt {s node i data} off buf hvol hnode hitem hbuf := by
    have hof := (h i).2
    rw [hitem] at hof
    change (exec (readAt codecs node off buf) s).1 = _
    unfold readAt
    rw [exec_bind_of_ok (exec_inode_ok hnode)]
    generalize inode i = found at hof
    cases hof with
    | file hread =>
      dsimp only
      have hvol' : s.vol = vol := hvol
      rw [exec_bind_of_ok (exec_get s), exec_lift, hvol']
      exact hread off buf hbuf
  readLink {s node i target} hvol hnode hitem := by
    have hof := (h i).2
    rw [hitem] at hof
    change (exec (readLink node) s).1 = _
    unfold readLink
    rw [exec_bind_of_ok (exec_inode_ok hnode)]
    generalize inode i = found at hof
    cases hof
    rfl

theorem Stores.mount (h : Stores codecs src g place sb vol) {inode : ι → SquashInode}
    (hroot : parseInode codecs vol (place g.root) = .ok (inode g.root)) :
    mount codecs src =
      .ok ⟨vol, (InternTable.empty.intern (place g.root) (inode g.root)).2⟩ := by
  unfold SquashFs.mount
  rw [h.openVolume, ok_bind]
  dsimp only
  rw [hroot]
  rfl

/-- A volume that stores files is opened, and presents them. -/
theorem squashfs_presents (h : Stores codecs src g place sb vol) :
    ∃ fs, mount codecs src = .ok fs ∧ Presents (frontend codecs) g fs := by
  obtain ⟨inode, hinode⟩ := h.inodes
  exact ⟨_, h.mount (hinode g.root).1,
    (stored hinode).serves.presents (NodeTable.Stored.mounted rfl rfl rfl)⟩

end Volumes

def letterHead : InodeHead := ⟨0o644, 0, 0, 0, 1⟩

theorem entryRest_len : ([0, 0, 2, 0] : List UInt8).length = 4 := rfl

def entryAt (name : UInt8) (hutf8 : isUtf8 [name] = true) (offset : UInt16) : Entry where
  offset := offset.toNat
  offset_lt := offset.toNat_lt
  unread := [0, 0, 2, 0]
  unread_len := entryRest_len
  name := [name]
  name_ne := List.cons_ne_nil _ _
  name_le := letter_name_le
  name_utf8 := hutf8

theorem linkName_utf8 : isUtf8 [0x62] = true := by decide

theorem rootStart_lt : 0 < 2 ^ 32 := by decide

theorem rootEntries_le : 2 ≤ 256 := by decide

theorem groupRest_len : ([0, 0, 0, 0] : List UInt8).length = 4 := rfl

def letterListing : Group where
  start := 0
  start_lt := rootStart_lt
  unread := [0, 0, 0, 0]
  unread_len := groupRest_len
  entries := [entryAt 0x61 letter_name_utf8 32, entryAt 0x62 linkName_utf8 68]
  entries_ne := List.cons_ne_nil _ _
  entries_le := rootEntries_le

/-- A file `a` of a block of zeros and a letter in a fragment, and a link `b` to it. -/
def letterFiles : Files Few where
  root := .root
  item
    | .root => .dir [([0x61], .first), ([0x62], .second)]
    | .first => .file [0, 0, 0x61]
    | .second => .link [0x61]

def letterPlace : Few → ℕ
  | .root => 0
  | .first => 32
  | .second => 68

def letterDir : List UInt8 := encodeFields (letterHead.basicDir 0 2 33 0 4)

def letterFile : List UInt8 := encodeFields (letterHead.basicFile 96 0 0 3 ++ words 4 [0])

def letterLink : List UInt8 := encodeFields (letterHead.link 3 1 1) ++ [0x61]

def letterInodes : List UInt8 := letterDir ++ letterFile ++ letterLink

def letterFragment : List UInt8 := leBytes 8 96 ++ leBytes 4 (2 ^ 24 + 1) ++ [0, 0, 0, 0]

def letterSuperblock : Superblock where
  inodes := 3
  mtime := 0
  blockSize := 2
  fragments := 1
  compression := 1
  blockLog := 1
  flags := 0
  ids := 0
  major := 4
  minor := 0
  root := 0
  used := 250
  idTable := 0
  xattrTable := 0
  inodeTable := 97
  directoryTable := 192
  fragmentTable := 242
  exportTable := 0

theorem letterBlock_range : 0 < 2 ∧ 2 ≤ 1 <<< 20 := by decide

def letterSource : Source where
  content := encodeFields letterSuperblock.fields ++ [0x61] ++
    storedBlock letterInodes ++ storedBlock letterListing.encode ++ storedBlock letterFragment ++
    leBytes 8 224
  length_lt := by decide +kernel

def letterVolume : Volume where
  src := letterSource
  codec := .zlib
  blockSize := 2
  blockSize_range := letterBlock_range
  inodeTableStart := 97
  directoryTableStart := 192
  fragmentTableStart := 242

theorem metaAt_letterVolume {at_ offset : ℕ} {bytes : List UInt8} (block post : List UInt8)
    (hslice : slice letterSource.content at_ (storedBlock block).length = some (storedBlock block))
    (hlen : block.length < 2 ^ 15) (hbytes : block.drop offset = bytes ++ post) :
    MetaAt noStreams letterVolume at_ offset bytes :=
  ⟨block, [], post, .cons hslice (.plain hlen) .nil, List.forall_mem_nil _, by
    rw [List.flatten_nil, List.append_nil, hbytes]⟩

theorem stores_letterVolume :
    Stores noStreams letterSource letterFiles letterPlace letterSuperblock letterVolume where
  superblock := by
    simp only [letterSource, List.append_assoc]
    exact List.prefix_append _ _
  vol_src := rfl
  codec := rfl
  blockSize := rfl
  inodeTable := rfl
  directoryTable := rfl
  fragmentTable := rfl
  root := rfl
  files i := by
    have hinodes : slice letterSource.content 97 (storedBlock letterInodes).length =
        some (storedBlock letterInodes) := by decide +kernel
    match i with
    | .root =>
      refine ⟨letterDir, metaAt_letterVolume _ (letterFile ++ letterLink) hinodes
        (by decide +kernel) (by decide +kernel), .dir letterHead 0 2 33 0 4
          ⟨[letterListing], by decide +kernel, by decide +kernel, ?_, ?_⟩⟩
      · exact metaAt_letterVolume letterListing.encode [] (by decide +kernel)
          (by decide +kernel) (by decide +kernel)
      · decide +kernel
    | .first =>
      refine ⟨letterFile, metaAt_letterVolume _ letterLink hinodes (by decide +kernel)
        (by decide +kernel), .file letterHead 96 0 0 3 rfl (by decide) ?_⟩
      have hzeros : BlockAt noStreams letterVolume 96 [0, 0] 0 96 := .sparse (n := 2)
      have hblocks : Blocks noStreams letterVolume 96 ([0, 0] ++ []) 1 [0] :=
        .cons (by decide) (by decide) hzeros .nil
      have hfrag : FragmentStored noStreams letterVolume 0 [0x61] := by
        refine ⟨224, 96, 2 ^ 24 + 1, [0x61], [0, 0, 0, 0], by decide, by decide, by decide, rfl,
          by decide +kernel, ?_, by decide +kernel, .plain (by decide) (by decide)⟩
        exact metaAt_letterVolume letterFragment [] (by decide +kernel)
          (by decide +kernel) (by decide +kernel)
      have htail : FileStored noStreams letterVolume 96 ([0, 0] ++ [] ++ [0x61]) [0] 0 0 :=
        .tail hblocks (by decide) (by decide) (by decide) hfrag (by decide)
      exact htail
    | .second =>
      exact ⟨letterLink, metaAt_letterVolume _ [] hinodes (by decide +kernel)
        (by decide +kernel), .link letterHead 1 (.inl rfl) (by decide)⟩

/-- The file of the volume is read after its directory, with its tail in a fragment. -/
theorem answers_iff_sumsFit_letterVolume : ∃ fs, mount noStreams letterSource = .ok fs ∧
    ((frontend noStreams).Answers (.readAt 1 0 [0, 0, 0]) ((frontend noStreams).after (.readDir 0) fs) ↔
      CallFits noStreams ((frontend noStreams).after (.readDir 0) fs) (.readAt 1 0 [0, 0, 0])) := by
  obtain ⟨inode, hinode⟩ := stores_letterVolume.inodes
  have hmount := stores_letterVolume.mount (hinode .root).1
  exact ⟨_, hmount, (answers_iff_sumsFit noStreams letterSource).2 _ _ _ hmount
    (.call () (.readDir 0) .refl)⟩

theorem squashfs_presents_letterVolume :
    ∃ fs, mount noStreams letterSource = .ok fs ∧ Presents (frontend noStreams) letterFiles fs :=
  squashfs_presents stores_letterVolume

end Lamfold.SquashFs
