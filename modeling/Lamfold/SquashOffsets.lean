import Lamfold.SquashState

/-!
Offsets in a SquashFS volume. Table starts, block positions and sizes are 64-bit
fields of the image that enter sums the code forms without a check; every call is
answered exactly when the sums it forms fit.
-/
namespace Lamfold.SquashFs

open Effects Bytes

section Conditions

variable {ρ : Type} (codecs : Codecs ρ) (vol : Volume)

/-- The length of a file inode with its block list, and the end of its blocks. -/
def FileFits (abs off headLen blocksStart size fragIdx : ℕ) : Prop :=
  headLen + blockCount vol size fragIdx * 4 < 2 ^ 64 ∧
    ∀ full sizes,
      readMetaSpan codecs vol abs off (headLen + blockCount vol size fragIdx * 4) = .ok full →
        (List.range (blockCount vol size fragIdx)).mapM
            (fun i => leU32 full (headLen + i * 4)) = .ok sizes →
          blocksStart + (sizes.map (· &&& sizeMask)).sum < 2 ^ 64

/-- The position of the listing of a directory inode of `len` bytes, whose size and
listing block are read by `sizeField` and at byte `startAt`. -/
def DirFits (abs off len startAt : ℕ) (sizeField : List UInt8 → Outcome ℕ) : Prop :=
  ∀ b size start, readMetaSpan codecs vol abs off len = .ok b → sizeField b = .ok size →
    leU32 b startAt = .ok start → vol.directoryTableStart + start < 2 ^ 64

structure TypedFits (itype abs off : ℕ) : Prop where
  basicDir : itype = 1 → DirFits codecs vol abs off 32 16 (leU16 · 24)
  extendedDir : itype = 8 → DirFits codecs vol abs off 40 24 (leU32 · 20)
  basicFile : itype = 2 → ∀ h blocksStart fragIdx fragOff size,
    readMetaSpan codecs vol abs off 32 = .ok h → leU32 h 16 = .ok blocksStart →
      leU32 h 20 = .ok fragIdx → leU32 h 24 = .ok fragOff → leU32 h 28 = .ok size →
        FileFits codecs vol abs off 32 blocksStart size fragIdx
  extendedFile : itype = 9 → ∀ h blocksStart fragIdx fragOff size,
    readMetaSpan codecs vol abs off 56 = .ok h → leU64 h 16 = .ok blocksStart →
      leU64 h 24 = .ok size → leU32 h 44 = .ok fragIdx → leU32 h 48 = .ok fragOff →
        FileFits codecs vol abs off 56 blocksStart size fragIdx

/-- The sums that parsing the inode of a reference forms. -/
structure InodeFits (inodeRef : ℕ) : Prop where
  table : vol.inodeTableStart + inodeRef >>> 16 < 2 ^ 64
  typed : ∀ head itype,
    readMetaSpan codecs vol (vol.inodeTableStart + inodeRef >>> 16) (inodeRef &&& 0xFFFF) 16 =
        .ok head →
      leU16 head 0 = .ok itype →
        TypedFits codecs vol itype (vol.inodeTableStart + inodeRef >>> 16) (inodeRef &&& 0xFFFF)

/-- The inodes of a listing, up to the first that does not parse. -/
def ListingFits : List (Str × ℕ) → Prop
  | [] => True
  | (_, inodeRef) :: rest =>
    InodeFits codecs vol inodeRef ∧
      ((∃ inode, parseInode codecs vol inodeRef = .ok inode) → ListingFits rest)

/-- How many bytes of `pos..stop` lie in the block that `pos` is in. -/
def inBlock (size stop pos : ℕ) : ℕ :=
  min (min vol.blockSize (size - pos / vol.blockSize * vol.blockSize) - pos % vol.blockSize)
    (stop - pos)

/-- A read of `pos..stop` gets to the fragment with the tail: the blocks before it
can be read. -/
inductive TailReached (size : ℕ) (file : FileBody) (stop : ℕ) : ℕ → Prop
  | tail {pos : ℕ} (hpos : pos < stop) (hidx : pos / vol.blockSize = file.blockSizes.length)
      (hfrag : file.fragIdx ≠ noFragment) : TailReached size file stop pos
  | block {pos : ℕ} {bytes : List UInt8} (hpos : pos < stop)
      (hidx : pos / vol.blockSize < file.blockSizes.length)
      (hread : readBlock codecs vol file (pos / vol.blockSize) (pos % vol.blockSize)
        (inBlock vol size stop pos) = .ok bytes)
      (hrest : TailReached size file stop (pos + inBlock vol size stop pos)) :
      TailReached size file stop pos

/-- The end of the window, and the position of the fragment's table entry when the
read gets to it. -/
def WindowFits (size : ℕ) (file : FileBody) (off len : ℕ) : Prop :=
  off < size → off + len < 2 ^ 64 ∧
    (TailReached codecs vol size file (min size (off + len)) off →
      vol.fragmentTableStart + file.fragIdx / 512 * 8 < 2 ^ 64)

end Conditions

variable {ρ : Type} {codecs : Codecs ρ} {vol : Volume}

theorem answered_unpack {plain : Prop} [Decidable plain] {raw : List UInt8} {max : ℕ} :
    Answered (unpack codecs vol plain raw max) :=
  Answered.ite (fun _ => trivial) fun _ => answered_decode

theorem answered_readMetaBlock {at_ : ℕ} : Answered (readMetaBlock codecs vol at_) := by
  refine Answered.bind (answered_readAt ..) fun hdr hhdr => ?_
  have hle := Source.readAt_le hhdr
  have hlt := vol.src.length_lt
  refine Answered.bind (answered_fits.mpr (Nat.lt_of_le_of_lt hle hlt)) fun start hstart => ?_
  obtain ⟨-, rfl⟩ := fits_eq_ok.mp hstart
  refine Answered.bind (answered_readAt ..) fun raw hraw => ?_
  refine answered_unpack.bind fun data _ => ?_
  have hend := Source.readAt_le hraw
  exact Answered.bind (answered_fits.mpr (Nat.lt_of_le_of_lt hend hlt)) fun _ _ => trivial

theorem answered_readMetaFrom {length next pos : ℕ} {block out : List UInt8} :
    Answered (readMetaFrom codecs vol length block next pos out) := by
  fun_induction readMetaFrom codecs vol length block next pos out with
  | case1 block next pos out hlen hpos ih =>
    refine answered_readMetaBlock.bind fun b _ => ?_
    obtain ⟨block', next'⟩ := b
    dsimp only
    split
    · trivial
    · rename_i hne
      exact ih block' next' hne
  | case2 block next pos out hlen hpos take ih => exact ih
  | case3 block next pos out hlen => trivial

theorem answered_readMetaSpan {absBlock offset length : ℕ} :
    Answered (readMetaSpan codecs vol absBlock offset length) := by
  refine Answered.bind (answered_checkedLen ..) fun _ _ => ?_
  exact answered_readMetaBlock.bind fun _ _ => answered_readMetaFrom

theorem answered_blockOffsets {here : ℕ} {sizes : List ℕ} (hhere : here < 2 ^ 64) :
    Answered (blockOffsets here sizes) ↔
      here + (sizes.map (· &&& sizeMask)).sum < 2 ^ 64 := by
  induction sizes generalizing here with
  | nil => exact iff_of_true trivial hhere
  | cons bs sizes ih =>
    rw [blockOffsets, answered_bind, answered_fits, List.map_cons, List.sum_cons]
    constructor
    · intro h
      obtain ⟨hlt, h⟩ := h
      have hrest := (answered_bind.mp (h _ (fits_eq_ok.mpr ⟨hlt, rfl⟩))).1
      have hsum := (ih hlt).mp hrest
      omega
    · intro h
      refine ⟨by omega, ?_⟩
      intro next hnext
      obtain ⟨hlt, rfl⟩ := fits_eq_ok.mp hnext
      exact ((ih hlt).mpr (by omega)).bind fun _ _ => trivial

theorem answered_parseFile {abs off headLen blocksStart size fragIdx fragOff : ℕ}
    (hstart : blocksStart < 2 ^ 64) :
    Answered (parseFile codecs vol abs off headLen blocksStart size fragIdx fragOff) ↔
      FileFits codecs vol abs off headLen blocksStart size fragIdx := by
  unfold parseFile FileFits
  dsimp only
  rw [answered_bind, lift_self, answered_fits]
  refine and_congr_right fun hlen => ?_
  constructor
  · intro h full sizes hfull hsizes
    have h := h _ (fits_eq_ok.mpr ⟨hlen, rfl⟩)
    rw [hfull, ok_bind, lift_self, hsizes, ok_bind, answered_bind, lift_self,
      answered_blockOffsets hstart] at h
    exact h.1
  · intro h len hlen
    obtain ⟨-, rfl⟩ := fits_eq_ok.mp hlen
    refine answered_readMetaSpan.bind fun full hfull => ?_
    refine (Answered.mapM fun i _ => answered_leAt ..).bind fun sizes hsizes => ?_
    exact ((answered_blockOffsets hstart).mpr (h full sizes hfull hsizes)).bind fun _ _ => trivial

theorem answered_parseBasicDir {abs off : ℕ} :
    Answered (parseBasicDir codecs vol abs off) ↔
      DirFits codecs vol abs off 32 16 (leU16 · 24) := by
  constructor
  · intro h b size start hb hsize hstart
    dsimp only at hsize
    unfold parseBasicDir at h
    rw [hb, ok_bind, hsize, lift_ok_bind, hstart, lift_ok_bind, answered_bind, lift_self,
      answered_fits] at h
    exact h.1
  · intro h
    refine answered_readMetaSpan.bind fun b hb => ?_
    refine (answered_leAt ..).bind fun size hsize => ?_
    refine (answered_leAt ..).bind fun start hstart => ?_
    refine Answered.bind (answered_fits.mpr (h b size start hb hsize hstart)) fun absBlock _ => ?_
    exact (answered_leAt ..).bind fun _ _ => trivial

theorem answered_parseExtendedDir {abs off : ℕ} :
    Answered (parseExtendedDir codecs vol abs off) ↔
      DirFits codecs vol abs off 40 24 (leU32 · 20) := by
  constructor
  · intro h b size start hb hsize hstart
    dsimp only at hsize
    unfold parseExtendedDir at h
    rw [hb, ok_bind, hsize, lift_ok_bind, hstart, lift_ok_bind, answered_bind, lift_self,
      answered_fits] at h
    exact h.1
  · intro h
    refine answered_readMetaSpan.bind fun b hb => ?_
    refine (answered_leAt ..).bind fun size hsize => ?_
    refine (answered_leAt ..).bind fun start hstart => ?_
    refine Answered.bind (answered_fits.mpr (h b size start hb hsize hstart)) fun absBlock _ => ?_
    exact (answered_leAt ..).bind fun _ _ => trivial

theorem answered_parseSymlink {abs off : ℕ} : Answered (parseSymlink codecs vol abs off) := by
  refine answered_readMetaSpan.bind fun h _ => ?_
  refine (answered_leAt ..).bind fun len _ => ?_
  refine Answered.bind (answered_checkedLen ..) fun targetSize _ => ?_
  refine answered_readMetaSpan.bind fun full _ => ?_
  exact Answered.bind (answered_okOr ..) fun _ _ => trivial

theorem answered_parseTyped {itype abs off : ℕ} :
    Answered (parseTyped codecs vol itype abs off) ↔ TypedFits codecs vol itype abs off := by
  constructor
  · intro h
    refine ⟨?_, ?_, ?_, ?_⟩
    · intro htype
      subst htype
      exact answered_parseBasicDir.mp h
    · intro htype
      subst htype
      exact answered_parseExtendedDir.mp h
    · intro htype head blocksStart fragIdx fragOff size hhead hstart hidx hoff hsize
      subst htype
      have hlt : blocksStart < 2 ^ 64 := Nat.lt_trans (leAt_lt hstart) (by decide)
      change Answered (parseBasicFile codecs vol abs off) at h
      unfold parseBasicFile at h
      rw [hhead, ok_bind, hstart, lift_ok_bind, hidx, lift_ok_bind, hoff, lift_ok_bind, hsize,
        lift_ok_bind] at h
      exact (answered_parseFile hlt).mp h
    · intro htype head blocksStart fragIdx fragOff size hhead hstart hsize hidx hoff
      subst htype
      have hlt : blocksStart < 2 ^ 64 := leAt_lt hstart
      change Answered (parseExtendedFile codecs vol abs off) at h
      unfold parseExtendedFile at h
      rw [hhead, ok_bind, hstart, lift_ok_bind, hsize, lift_ok_bind, hidx, lift_ok_bind, hoff,
        lift_ok_bind] at h
      exact (answered_parseFile hlt).mp h
  · intro h
    refine Answered.ite (fun htype => answered_parseBasicDir.mpr (h.basicDir htype)) fun _ => ?_
    refine Answered.ite (fun htype => answered_parseExtendedDir.mpr (h.extendedDir htype))
      fun _ => ?_
    refine Answered.ite (fun htype => ?_) fun _ => ?_
    · refine answered_readMetaSpan.bind fun head hhead => ?_
      refine (answered_leAt ..).bind fun blocksStart hstart => ?_
      refine (answered_leAt ..).bind fun fragIdx hidx => ?_
      refine (answered_leAt ..).bind fun fragOff hoff => ?_
      refine (answered_leAt ..).bind fun size hsize => ?_
      have hlt : blocksStart < 2 ^ 64 := Nat.lt_trans (leAt_lt hstart) (by decide)
      exact (answered_parseFile hlt).mpr
        (h.basicFile htype head blocksStart fragIdx fragOff size hhead hstart hidx hoff hsize)
    refine Answered.ite (fun htype => ?_) fun _ => ?_
    · refine answered_readMetaSpan.bind fun head hhead => ?_
      refine (answered_leAt ..).bind fun blocksStart hstart => ?_
      refine (answered_leAt ..).bind fun size hsize => ?_
      refine (answered_leAt ..).bind fun fragIdx hidx => ?_
      refine (answered_leAt ..).bind fun fragOff hoff => ?_
      have hlt : blocksStart < 2 ^ 64 := leAt_lt hstart
      exact (answered_parseFile hlt).mpr
        (h.extendedFile htype head blocksStart fragIdx fragOff size hhead hstart hsize hidx hoff)
    exact Answered.ite (fun _ => answered_parseSymlink) fun _ => trivial

theorem answered_parseInode {inodeRef : ℕ} :
    Answered (parseInode codecs vol inodeRef) ↔ InodeFits codecs vol inodeRef := by
  unfold parseInode
  rw [answered_bind, lift_self, answered_fits]
  constructor
  · intro h
    obtain ⟨hlt, h⟩ := h
    refine ⟨hlt, ?_⟩
    intro head itype hhead htype
    have h := h _ (fits_eq_ok.mpr ⟨hlt, rfl⟩)
    dsimp only at h
    rw [hhead, ok_bind, htype, lift_ok_bind] at h
    exact answered_parseTyped.mp h
  · intro h
    refine ⟨h.table, ?_⟩
    intro abs habs
    obtain ⟨-, rfl⟩ := fits_eq_ok.mp habs
    refine answered_readMetaSpan.bind fun head hhead => ?_
    refine (answered_leAt ..).bind fun itype htype => ?_
    exact answered_parseTyped.mpr (h.typed head itype hhead htype)

theorem answered_listingFrom {listing : List UInt8} {start left p : ℕ} :
    Answered (listingFrom listing start left p) := by
  fun_induction listingFrom listing start left p with
  | case1 start left p hentry ih =>
    refine (answered_leAt ..).bind fun eoff _ => ?_
    refine (answered_leAt ..).bind fun nlen _ => ?_
    refine Answered.bind (answered_okOr ..) fun name _ => ?_
    exact (ih nlen).bind fun _ _ => trivial
  | case2 start left p hentry hheader ih =>
    refine (answered_leAt ..).bind fun count _ => ?_
    refine (answered_leAt ..).bind fun start' _ => ?_
    exact ih count start'
  | case3 start left p hentry hheader => trivial

theorem answered_dirEntries {absBlock offset size : ℕ} :
    Answered (dirEntries codecs vol absBlock offset size) :=
  answered_readMetaSpan.bind fun _ _ => answered_listingFrom

theorem parsesAnswered_iff {entries : List (Str × ℕ)} :
    InternTable.ParsesAnswered (parseInode codecs vol) entries ↔
      ListingFits codecs vol entries := by
  induction entries with
  | nil => exact Iff.rfl
  | cons entry entries ih =>
    obtain ⟨name, inodeRef⟩ := entry
    unfold InternTable.ParsesAnswered ListingFits
    rw [answered_parseInode, ih]

theorem answered_readDataBlock {at_ rawSize : ℕ} :
    Answered (readDataBlock codecs vol at_ rawSize) := by
  refine Answered.ite (fun _ => trivial) fun _ => ?_
  exact Answered.bind (answered_readAt ..) fun _ _ => answered_unpack

theorem answered_readFragment {idx : ℕ} :
    Answered (readFragment codecs vol idx) ↔
      vol.fragmentTableStart + idx / 512 * 8 < 2 ^ 64 := by
  unfold readFragment
  rw [answered_bind, lift_self, answered_fits]
  refine and_iff_left fun at_ _ => ?_
  refine Answered.bind (answered_readAt ..) fun ptr _ => ?_
  refine answered_readMetaSpan.bind fun fe _ => ?_
  refine (answered_leAt ..).bind fun start _ => ?_
  exact (answered_leAt ..).bind fun _ _ => answered_readDataBlock

section Windows

variable {size : ℕ} {file : FileBody}

theorem answered_readBlock {idx within want : ℕ}
    (hoffsets : file.blockOffsets.length = file.blockSizes.length) :
    Answered (readBlock codecs vol file idx within want) ↔
      (idx = file.blockSizes.length → file.fragIdx ≠ noFragment →
        vol.fragmentTableStart + file.fragIdx / 512 * 8 < 2 ^ 64) := by
  unfold readBlock
  cases hraw : file.blockSizes[idx]? with
  | some raw =>
    obtain ⟨hlt, -⟩ := List.getElem?_eq_some_iff.mp hraw
    refine iff_of_true ?_ fun hidx => absurd hidx (Nat.ne_of_lt hlt)
    refine Answered.ite (fun _ => trivial) fun _ => ?_
    refine Answered.bind (answered_unwrap.mpr ?_) fun at_ _ => ?_
    · intro hnone
      have hge := List.getElem?_eq_none_iff.mp hnone
      omega
    · exact answered_readDataBlock.bind fun _ _ => answered_okOr ..
  | none =>
    dsimp only
    rw [answered_ite, answered_bind, answered_readFragment]
    constructor
    · intro h hidx hfrag
      exact (h.1 ⟨hfrag, hidx⟩).1
    · intro h
      refine ⟨?_, fun _ => trivial⟩
      intro htail
      exact ⟨h htail.2 htail.1, fun _ _ => answered_okOr ..⟩

theorem inBlock_pos (vol : Volume) {stop pos : ℕ} (hpos : pos < stop) (hstop : stop ≤ size) :
    0 < inBlock vol size stop pos := by
  have hdiv := Nat.div_add_mod pos vol.blockSize
  have hmod := Nat.mod_lt pos vol.blockSize_range.1
  rw [Nat.mul_comm] at hdiv
  unfold inBlock
  omega

/-- The sums inside a file do not leave its size; the loop goes on block by block. -/
theorem readBlocks_step {stop pos : ℕ} {out : List UInt8} (hsize : size < 2 ^ 64)
    (hstop : stop ≤ size) (hpos : pos < stop) :
    readBlocks codecs vol size file stop pos out = (do
      let bytes ← readBlock codecs vol file (pos / vol.blockSize) (pos % vol.blockSize)
        (inBlock vol size stop pos)
      readBlocks codecs vol size file stop (pos + inBlock vol size stop pos) (out ++ bytes) :
        Outcome (List UInt8)) := by
  have hdiv := Nat.div_add_mod pos vol.blockSize
  have hmod := Nat.mod_lt pos vol.blockSize_range.1
  rw [Nat.mul_comm] at hdiv
  have hbase : u64 (pos / vol.blockSize * vol.blockSize) =
      .ok (pos / vol.blockSize * vol.blockSize) := fits_eq_ok.mpr ⟨by omega, rfl⟩
  have hleft : minus size (pos / vol.blockSize * vol.blockSize) =
      .ok (size - pos / vol.blockSize * vol.blockSize) := minus_eq_ok.mpr ⟨by omega, rfl⟩
  have hwithin : minus (min vol.blockSize (size - pos / vol.blockSize * vol.blockSize))
      (pos % vol.blockSize) =
        .ok (min vol.blockSize (size - pos / vol.blockSize * vol.blockSize) -
          pos % vol.blockSize) := minus_eq_ok.mpr ⟨by omega, rfl⟩
  rw [readBlocks, if_pos hpos]
  dsimp only
  rw [hbase, lift_ok_bind, hleft, lift_ok_bind, hwithin, lift_ok_bind]
  have hwant := inBlock_pos vol hpos hstop
  unfold inBlock at hwant ⊢
  rw [if_neg (Nat.ne_of_gt hwant)]

/-- Only the entry of the tail's fragment can lie out of reach. -/
theorem answered_readBlocks {stop pos : ℕ} {out : List UInt8} (hsize : size < 2 ^ 64)
    (hoffsets : file.blockOffsets.length = file.blockSizes.length) (hstop : stop ≤ size) :
    Answered (readBlocks codecs vol size file stop pos out) ↔
      (TailReached codecs vol size file stop pos →
        vol.fragmentTableStart + file.fragIdx / 512 * 8 < 2 ^ 64) := by
  by_cases hpos : pos < stop
  · have hwant := inBlock_pos vol hpos hstop
    rw [readBlocks_step hsize hstop hpos, answered_bind, answered_readBlock hoffsets]
    constructor
    · intro h htail
      obtain ⟨hblock, hrest⟩ := h
      cases htail with
      | tail _ hidx hfrag => exact hblock hidx hfrag
      | block _ hidx hread htail =>
        exact (answered_readBlocks hsize hoffsets hstop).mp (hrest _ hread) htail
    · intro h
      refine ⟨fun hidx hfrag => h (.tail hpos hidx hfrag), ?_⟩
      intro bytes hread
      refine (answered_readBlocks hsize hoffsets hstop).mpr fun htail => ?_
      by_cases hidx : pos / vol.blockSize < file.blockSizes.length
      · exact h (.block hpos hidx hread htail)
      · -- past the blocks, only the tail itself can be read
        unfold readBlock at hread
        rw [List.getElem?_eq_none (Nat.le_of_not_lt hidx)] at hread
        dsimp only at hread
        split at hread
        · rename_i hlast
          exact h (.tail hpos hlast.2 hlast.1)
        · exact absurd hread (fail_ne_ok _ _)
  · rw [readBlocks, if_neg hpos]
    refine iff_of_true trivial fun htail => ?_
    cases htail with
    | tail h => exact absurd h hpos
    | block h => exact absurd h hpos
  termination_by stop - pos

theorem answered_readFile {off : ℕ} {buf : List UInt8} (hsize : size < 2 ^ 64)
    (hoffsets : file.blockOffsets.length = file.blockSizes.length) :
    Answered (readFile codecs vol size file off buf) ↔
      WindowFits codecs vol size file off buf.length := by
  unfold readFile WindowFits
  rw [answered_ite, answered_bind, lift_self, answered_fits]
  constructor
  · intro h hoff
    obtain ⟨hfits, h⟩ := h.2 (Nat.not_le_of_lt hoff)
    refine ⟨hfits, ?_⟩
    have h := h _ (fits_eq_ok.mpr ⟨hfits, rfl⟩)
    exact (answered_readBlocks hsize hoffsets (Nat.min_le_left ..)).mp (answered_bind.mp h).1
  · intro h
    refine ⟨fun _ => trivial, ?_⟩
    intro hoff
    obtain ⟨hfits, htail⟩ := h (Nat.lt_of_not_le hoff)
    refine ⟨hfits, ?_⟩
    intro asked hasked
    obtain ⟨-, rfl⟩ := fits_eq_ok.mp hasked
    have hdata : Answered (readBlocks codecs vol size file (min size (off + buf.length)) off []) :=
      (answered_readBlocks hsize hoffsets (Nat.min_le_left ..)).mpr htail
    exact hdata.bind fun _ _ => trivial

end Windows

/-- The sums that opening forms fit. -/
def MountFits (codecs : Codecs ρ) (src : Source) : Prop :=
  ∀ vol rootRef, openVolume src = .ok (vol, rootRef) → InodeFits codecs vol rootRef

/-- The sums that listing a node forms fit. -/
def DirectoryFits (codecs : Codecs ρ) (fs : SquashFs) (dir : NodeId) : Prop :=
  ∀ inode absBlock offset size entries, fs.table.inode dir = .ok inode →
    inode.body = .dir absBlock offset size →
      dirEntries codecs fs.vol absBlock offset size = .ok entries →
        ListingFits codecs fs.vol entries

/-- The sums that a call forms fit. -/
def CallFits (codecs : Codecs ρ) (fs : SquashFs) : Call → Prop
  | .lookup dir _ => DirectoryFits codecs fs dir
  | .readDir dir => DirectoryFits codecs fs dir
  | .readAt node off buf => ∀ inode file, fs.table.inode node = .ok inode →
      inode.body = .file file → WindowFits codecs fs.vol inode.size file off buf.length
  | _ => True

theorem answered_openVolume {src : Source} : Answered (openVolume src) := by
  refine Answered.ite (fun _ => trivial) fun _ => ?_
  refine Answered.bind (answered_readAt ..) fun sb _ => ?_
  refine (answered_leAt ..).bind fun found _ => ?_
  refine Answered.ite (fun _ => trivial) fun _ => ?_
  refine (answered_leAt ..).bind fun id _ => ?_
  refine Answered.bind ?_ fun codec _ => ?_
  · unfold codecOf
    split_ifs <;> trivial
  refine (answered_leAt ..).bind fun blockSize _ => ?_
  split
  · refine (answered_leAt ..).bind fun rootRef _ => ?_
    refine (answered_leAt ..).bind fun inodeTableStart _ => ?_
    refine (answered_leAt ..).bind fun directoryTableStart _ => ?_
    exact (answered_leAt ..).bind fun _ _ => trivial
  · trivial

theorem answered_mount {src : Source} :
    Answered (mount codecs src) ↔ MountFits codecs src := by
  unfold mount MountFits
  rw [answered_bind, iff_true_intro answered_openVolume, true_and]
  constructor
  · intro h vol rootRef hopen
    exact answered_parseInode.mp (answered_bind.mp (h (vol, rootRef) hopen)).1
  · intro h opened hopen
    obtain ⟨vol, rootRef⟩ := opened
    exact (answered_parseInode.mpr (h vol rootRef hopen)).bind fun _ _ => trivial

theorem answered_inode_bind {α : Type} {fs : SquashFs} {node : NodeId}
    {f : SquashInode → Method SquashFs α} :
    Answered (exec (SquashFs.inode node >>= f) fs).1 ↔
      ∀ inode, fs.table.inode node = .ok inode → Answered (exec (f inode) fs).1 :=
  answered_exec_reading_bind (answered_okOr ..)

theorem answered_readDir (fs : SquashFs) (dir : NodeId) :
    Answered (exec (readDir codecs dir) fs).1 ↔ DirectoryFits codecs fs dir := by
  unfold readDir DirectoryFits
  rw [answered_inode_bind]
  constructor
  · intro h inode absBlock offset size entries hfound hbody hentries
    have h := h inode hfound
    rw [hbody] at h
    dsimp only at h
    rw [exec_bind, exec_get] at h
    dsimp only at h
    rw [answered_exec_lift_bind] at h
    have hall := h.2 entries hentries
    exact parsesAnswered_iff.mp ((InternTable.answered_internAll fs.table).mp hall)
  · intro h inode hfound
    split
    · rename_i absBlock offset size hbody
      rw [exec_bind, exec_get]
      dsimp only
      refine answered_exec_lift_bind.mpr ⟨answered_dirEntries, ?_⟩
      intro entries hentries
      have hall := parsesAnswered_iff.mpr (h inode absBlock offset size entries hfound hbody hentries)
      exact (InternTable.answered_internAll fs.table).mpr hall
    · trivial

theorem answered_readAt_iff {fs : SquashFs} (hfs : fs.table.All SquashInode.Sound) {node : NodeId}
    {off : ℕ} {buf : List UInt8} :
    Answered (exec (readAt codecs node off buf) fs).1 ↔ CallFits codecs fs (.readAt node off buf) := by
  unfold readAt CallFits
  rw [answered_inode_bind]
  constructor
  · intro h inode file hfound hbody
    have hsound := hfs.inode hfound
    have h := h inode hfound
    rw [hbody] at h
    exact (answered_readFile hsound.size_lt (hsound.offsets file hbody)).mp h
  · intro h inode hfound
    have hsound := hfs.inode hfound
    split
    · rename_i file hbody
      exact (answered_readFile hsound.size_lt (hsound.offsets file hbody)).mpr
        (h inode file hfound hbody)
    · exact answered_exec_ite.mpr ⟨fun _ => trivial, fun _ => trivial⟩

/-- Opening, and any call in any state a mounted volume can reach, is answered
exactly when the sums it forms fit. -/
theorem answers_iff_sumsFit (codecs : Codecs ρ) (src : Source) :
    (Answered (mount codecs src) ↔ MountFits codecs src) ∧
      ∀ fs t call, mount codecs src = .ok fs → Reaches (fun _ : Unit => frontend codecs) fs t →
        ((frontend codecs).Answers call t ↔ CallFits codecs t call) := by
  refine ⟨answered_mount, ?_⟩
  intro fs t call hmount hrun
  have ht := hrun.keeps (fun _ => frontend_keeps_opened fs.vol) (mount_opened hmount)
  cases call with
  | lookup dir name =>
    refine Iff.trans ?_ (answered_readDir t dir)
    refine answered_exec_bind.trans (and_iff_left ?_)
    intro entries u _
    trivial
  | readDir dir => exact answered_readDir t dir
  | metadata node =>
    refine iff_true_intro (answered_inode_bind.mpr ?_)
    intro inode _
    trivial
  | readAt node off buf => exact answered_readAt_iff ht.nodes
  | readLink node =>
    refine iff_true_intro (answered_inode_bind.mpr ?_)
    intro inode _
    split
    · trivial
    · trivial

/-- A superblock that says zlib, blocks of 4096 bytes, the root's reference, and where
the inode table is. -/
def superblock (rootRef inodeTableStart : List UInt8) : List UInt8 :=
  [0x68, 0x73, 0x71, 0x73] ++ List.replicate 8 0 ++ [0, 16, 0, 0] ++ List.replicate 4 0 ++
    [1, 0] ++ List.replicate 10 0 ++ rootRef ++ List.replicate 24 0 ++ inodeTableStart ++
    List.replicate 24 0

/-- A root in the second metadata block of an inode table at the last offset. -/
def lastTable : Source where
  content := superblock [0, 0, 1, 0, 0, 0, 0, 0] (List.replicate 8 255)
  length_lt := by decide +kernel

/-- The sum of the table's start and the root's block leaves 64 bits, whatever the
decompressors are. -/
theorem mount_of_lastTable (codecs : Codecs ρ) : mount codecs lastTable = .error .panic := by
  have hopen : openVolume lastTable =
      .ok (⟨lastTable, .zlib, 4096, by decide, 2 ^ 64 - 1, 0, 0⟩, 2 ^ 16) := by decide +kernel
  have hsum : u64 (2 ^ 64 - 1 + 2 ^ 16 >>> 16) = .error .panic := by decide
  have hroot : parseInode codecs ⟨lastTable, .zlib, 4096, by decide, 2 ^ 64 - 1, 0, 0⟩ (2 ^ 16) =
      .error .panic := by
    unfold parseInode
    dsimp only
    rw [hsum, lift_error_bind]
  unfold mount
  rw [hopen, ok_bind]
  dsimp only
  rw [hroot, error_bind]

theorem mount_lastTable : mount noStreams lastTable = .error .panic := mount_of_lastTable noStreams

end Lamfold.SquashFs
