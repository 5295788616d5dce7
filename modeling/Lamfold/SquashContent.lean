import Lamfold.SquashOffsets
import Lamfold.SquashRequests

/-!
Windows of SquashFS files. The content of a file is the data of its blocks, one after
the other, and the tail in its fragment. A read returns the window of that content, or
fails over a block that the window meets; the other blocks do not matter, and nothing is
asked for them.
-/
namespace Lamfold.SquashFs

open Effects Bytes

section Content

variable {ρ : Type} (codecs : Codecs ρ) (vol : Volume)

/-- `blocks_start` in the record of a basic or an extended file. -/
def blocksStartOf (inodeRef : ℕ) : Outcome ℕ := do
  let abs ← u64 (vol.inodeTableStart + inodeRef >>> 16)
  let off := inodeRef &&& 0xFFFF
  let head ← readMetaSpan codecs vol abs off 16
  let itype ← leU16 head 0
  if itype = 2 then do
    let h ← readMetaSpan codecs vol abs off 32
    leU32 h 16
  else do
    let h ← readMetaSpan codecs vol abs off 56
    leU64 h 16

/-- How much of a file of `size` bytes block `k` holds. -/
def partLen (size k : ℕ) : ℕ := min vol.blockSize (size - k * vol.blockSize)

/-- Where block `k` starts: after the stored sizes of the blocks before it. -/
def blockStart (blocksStart : ℕ) (sizes : List ℕ) (k : ℕ) : ℕ :=
  blocksStart + ((sizes.take k).map (· &&& sizeMask)).sum

variable (blocksStart size : ℕ) (file : FileBody)

/-- The data from the start of block `k` on: zeros for a sparse block, and for the tail
what the fragment holds from its offset on. -/
def blockData (k : ℕ) : Outcome (List UInt8) :=
  match file.blockSizes[k]? with
  | some raw =>
    if raw &&& sizeMask = 0 then .ok (List.replicate (partLen vol size k) 0)
    else readDataBlock codecs vol (blockStart blocksStart file.blockSizes k) raw
  | none =>
    if file.fragIdx ≠ noFragment ∧ k = file.blockSizes.length then do
      let frag ← readFragment codecs vol file.fragIdx
      return frag.drop file.fragOff
    else fail (.corrupt "squashfs: file longer than its blocks")

/-- The bytes of the file that block `k` holds; it fails when the block cannot be read
or is shorter than these. -/
def filePart (k : ℕ) : Outcome (List UInt8) := do
  let data ← blockData codecs vol blocksStart size file k
  okOr (slice data 0 (partLen vol size k)) (.corrupt "squashfs: data block shorter than its file")

/-- The whole file, when all of its blocks can be read. -/
def content : Outcome (List UInt8) := do
  let parts ← (List.range (divCeil size vol.blockSize)).mapM
    (filePart codecs vol blocksStart size file)
  return parts.flatten

/-- Byte `i` of the file, from the block it lies in alone. -/
def contentAt (i : ℕ) : Option UInt8 :=
  match blockData codecs vol blocksStart size file (i / vol.blockSize) with
  | .ok data => data[i % vol.blockSize]?
  | .error _ => none

/-- The window `pos..stop` meets block `k`. -/
def Meets (pos stop k : ℕ) : Prop := pos / vol.blockSize ≤ k ∧ k * vol.blockSize < stop

/-- A request for the data of block `k`: for its stored bytes, or on the way to the
fragment. -/
def AsksBlock (k : ℕ) (r : Request) : Prop :=
  match file.blockSizes[k]? with
  | some raw => r = ⟨blockStart blocksStart file.blockSizes k, raw &&& sizeMask⟩
  | none =>
    k = file.blockSizes.length ∧ r ∈ (readFragment codecs vol file.fragIdx : Asking _).notes

/-- Block `k` cannot be read, or is shorter than the part of the file it holds. -/
def Unreadable (k : ℕ) : Prop := ∀ part, filePart codecs vol blocksStart size file k ≠ .ok part

end Content

variable {ρ : Type} {codecs : Codecs ρ} {vol : Volume} {blocksStart size : ℕ} {file : FileBody}

theorem blockOffsets_getElem? {here k : ℕ} {sizes offsets : List ℕ}
    (h : blockOffsets here sizes = .ok offsets) (hk : k < sizes.length) :
    offsets[k]? = some (blockStart here sizes k) := by
  induction sizes generalizing here offsets k with
  | nil => exact absurd hk (Nat.not_lt_zero k)
  | cons bs sizes ih =>
    obtain ⟨next, hnext, h⟩ := bind_eq_ok.mp h
    obtain ⟨-, rfl⟩ := fits_eq_ok.mp hnext
    obtain ⟨rest, hrest, h⟩ := bind_eq_ok.mp h
    cases h
    cases k with
    | zero => rfl
    | succ k =>
      rw [List.getElem?_cons_succ, ih hrest (Nat.lt_of_succ_lt_succ hk)]
      simp only [blockStart, List.take_succ_cons, List.map_cons, List.sum_cons, Nat.add_assoc]

/-- What is read of a block is read out of its data. -/
theorem readBlock_eq (hoffsets : blockOffsets blocksStart file.blockSizes = .ok file.blockOffsets)
    {k within want : ℕ} (hwant : 0 < want) (hpart : within + want ≤ partLen vol size k) :
    ∃ e, readBlock codecs vol file k within want = (do
      let data ← blockData codecs vol blocksStart size file k
      okOr (slice data within want) e) := by
  unfold readBlock blockData
  cases hraw : file.blockSizes[k]? with
  | some raw =>
    obtain ⟨hk, -⟩ := List.getElem?_eq_some_iff.mp hraw
    refine ⟨.corrupt "squashfs: data block shorter than its file", ?_⟩
    dsimp only
    split
    · have hzeros : slice (List.replicate (partLen vol size k) (0 : UInt8)) within want =
          some (List.replicate want 0) := by
        refine slice_eq_some.mpr ⟨by rwa [List.length_replicate], ?_⟩
        rw [List.drop_replicate, List.take_replicate]
        congr 1
        omega
      rw [ok_bind, hzeros]
      rfl
    · rw [blockOffsets_getElem? hoffsets hk]
      rfl
  | none =>
    refine ⟨.corrupt "squashfs: fragment tail OOB", ?_⟩
    dsimp only
    split
    · have htail : ∀ frag : List UInt8,
          slice frag (file.fragOff + within) want = slice (frag.drop file.fragOff) within want := by
        intro frag
        unfold slice
        rw [List.length_drop, List.drop_drop]
        by_cases h : file.fragOff + within + want ≤ frag.length
        · rw [if_pos h, if_pos (by omega)]
        · rw [if_neg h, if_neg (by omega)]
      simp only [htail, bind_assoc, pure_bind, lift_self]
    · rfl

theorem readBlock_cases (codecs : Codecs ρ)
    (hoffsets : blockOffsets blocksStart file.blockSizes = .ok file.blockOffsets)
    {k within want : ℕ} (hwant : 0 < want) (hpart : within + want ≤ partLen vol size k) :
    (∃ data bytes, blockData codecs vol blocksStart size file k = .ok data ∧
        slice data within want = some bytes ∧
        readBlock codecs vol file k within want = .ok bytes) ∨
      (∃ e, readBlock codecs vol file k within want = .error e) ∧
        Unreadable codecs vol blocksStart size file k := by
  obtain ⟨e, hread⟩ : ∃ e, readBlock codecs vol file k within want = (do
    let data ← blockData codecs vol blocksStart size file k
    okOr (slice data within want) e) := readBlock_eq hoffsets hwant hpart
  rw [hread]
  unfold Unreadable filePart
  cases blockData codecs vol blocksStart size file k with
  | error reason => exact .inr ⟨⟨reason, rfl⟩, fun part h => nomatch h⟩
  | ok data =>
    cases hslice : slice data within want with
    | some bytes => exact .inl ⟨data, bytes, rfl, hslice, by rw [ok_bind, hslice]; rfl⟩
    | none =>
      have hlt := slice_eq_none.mp hslice
      have hshort : slice data 0 (partLen vol size k) = none := slice_eq_none.mpr (by omega)
      refine .inr ⟨⟨.err e, by rw [ok_bind, hslice]; rfl⟩, ?_⟩
      intro part h
      rw [ok_bind, hshort] at h
      exact absurd h (fail_ne_ok _ _)

theorem inBlock_le {stop pos : ℕ} (hpos : pos < stop) (hstop : stop ≤ size) :
    pos % vol.blockSize + inBlock vol size stop pos ≤ partLen vol size (pos / vol.blockSize) := by
  have hwant := inBlock_pos vol hpos hstop
  unfold inBlock at hwant ⊢
  unfold partLen
  omega

theorem inBlock_piece {stop pos i : ℕ} (hi : i < inBlock vol size stop pos) :
    (pos + i) / vol.blockSize = pos / vol.blockSize ∧
      (pos + i) % vol.blockSize = pos % vol.blockSize + i := by
  have hdiv := Nat.div_add_mod pos vol.blockSize
  apply same_piece
  rw [Nat.succ_mul]
  rw [Nat.mul_comm] at hdiv
  unfold inBlock at hi
  omega

/-- A window is read block by block, or one of the blocks that it meets cannot be. -/
theorem readBlocks_content (codecs : Codecs ρ) (vol : Volume)
    (hoffsets : blockOffsets blocksStart file.blockSizes = .ok file.blockOffsets)
    (hsize : size < 2 ^ 64) {stop pos : ℕ} (hpos : pos ≤ stop) (hstop : stop ≤ size)
    (out : List UInt8) :
    (∃ bytes, readBlocks codecs vol size file stop pos out = .ok (out ++ bytes) ∧
        bytes.length = stop - pos ∧
        ∀ i, pos + i < stop → bytes[i]? = contentAt codecs vol blocksStart size file (pos + i)) ∨
      ∃ e k, readBlocks codecs vol size file stop pos out = .error e ∧ Meets vol pos stop k ∧
        Unreadable codecs vol blocksStart size file k := by
  rcases Nat.lt_or_eq_of_le hpos with hlt | rfl
  · have hwant := inBlock_pos vol hlt hstop
    have hle : _ ≤ partLen vol size (pos / vol.blockSize) := inBlock_le hlt hstop
    have hend : pos + inBlock vol size stop pos ≤ stop := by
      unfold inBlock
      omega
    rw [readBlocks_step hsize hstop hlt]
    rcases readBlock_cases codecs hoffsets hwant hle with
      ⟨data, bytes, hdata, hslice, hread⟩ | ⟨⟨e, hread⟩, hunreadable⟩
    · rw [hread, ok_bind]
      have hlen := slice_length hslice
      rcases readBlocks_content codecs vol hoffsets hsize hend hstop (out ++ bytes) with
        ⟨rest, hrest, hrestLen, hbytes⟩ | ⟨e, k, hrest, hmeets, hunreadable⟩
      · left
        refine ⟨bytes ++ rest, ?_, ?_, ?_⟩
        · rw [hrest, List.append_assoc]
        · rw [List.length_append, hlen, hrestLen]
          omega
        · intro i hi
          refine append_getElem? (f := fun i => contentAt codecs vol blocksStart size file (pos + i))
            hlen ?_ ?_
          · intro hin
            obtain ⟨hdiv, hmod⟩ := inBlock_piece hin
            unfold contentAt
            rw [hdiv, hmod, hdata, slice_getElem? hslice hin]
          · rintro j rfl
            rw [hbytes j (by omega), Nat.add_assoc]
      · right
        refine ⟨e, k, hrest, ⟨?_, hmeets.2⟩, hunreadable⟩
        exact Nat.le_trans (Nat.div_le_div_right (Nat.le_add_right ..)) hmeets.1
    · right
      rw [hread, error_bind]
      refine ⟨e, pos / vol.blockSize, rfl, ⟨Nat.le_refl _, ?_⟩, hunreadable⟩
      exact Nat.lt_of_le_of_lt (Nat.div_mul_le_self ..) hlt
  · left
    refine ⟨[], ?_, by simp, fun i hi => absurd hi (by omega)⟩
    rw [readBlocks, if_neg (Nat.lt_irrefl _), List.append_nil]
    rfl
  termination_by stop - pos

/-- Blocks that the window does not meet do not matter. -/
theorem readBlocks_congr {file' : FileBody} (hsize : size < 2 ^ 64) {stop pos : ℕ}
    (hstop : stop ≤ size)
    (hsame : ∀ k within want, Meets vol pos stop k →
      readBlock codecs vol file' k within want = readBlock codecs vol file k within want)
    (out : List UInt8) :
    readBlocks codecs vol size file' stop pos out = readBlocks codecs vol size file stop pos out := by
  by_cases hlt : pos < stop
  · have hwant := inBlock_pos vol hlt hstop
    have hfirst : Meets vol pos stop (pos / vol.blockSize) :=
      ⟨Nat.le_refl _, Nat.lt_of_le_of_lt (Nat.div_mul_le_self ..) hlt⟩
    rw [readBlocks_step hsize hstop hlt, readBlocks_step hsize hstop hlt, hsame _ _ _ hfirst]
    have hrest : ∀ bytes, readBlocks codecs vol size file' stop
        (pos + inBlock vol size stop pos) (out ++ bytes) =
          readBlocks codecs vol size file stop (pos + inBlock vol size stop pos) (out ++ bytes) := by
      intro bytes
      refine readBlocks_congr hsize hstop ?_ (out ++ bytes)
      intro k within want hmeets
      refine hsame k within want ⟨?_, hmeets.2⟩
      exact Nat.le_trans (Nat.div_le_div_right (Nat.le_add_right ..)) hmeets.1
    simp only [hrest]
  · rw [readBlocks, readBlocks, if_neg hlt, if_neg hlt]
  termination_by stop - pos

theorem filePart_byte {k j : ℕ} {part : List UInt8}
    (h : filePart codecs vol blocksStart size file k = .ok part) (hj : j < partLen vol size k) :
    part[j]? = contentAt codecs vol blocksStart size file (k * vol.blockSize + j) := by
  obtain ⟨data, hdata, h⟩ := bind_eq_ok.mp h
  have hin : j < vol.blockSize := Nat.lt_of_lt_of_le hj (Nat.min_le_left ..)
  have hdiv : (k * vol.blockSize + j) / vol.blockSize = k := by
    rw [Nat.mul_comm, Nat.mul_add_div vol.blockSize_range.1, Nat.div_eq_of_lt hin, Nat.add_zero]
  have hmod : (k * vol.blockSize + j) % vol.blockSize = j := by
    rw [Nat.mul_comm, Nat.mul_add_mod, Nat.mod_eq_of_lt hin]
  unfold contentAt
  rw [hdiv, hmod, hdata, slice_getElem? (okOr_eq_ok.mp h) hj, Nat.zero_add]

theorem filePart_length {k : ℕ} {part : List UInt8}
    (h : filePart codecs vol blocksStart size file k = .ok part) :
    part.length = partLen vol size k := by
  obtain ⟨data, -, h⟩ := bind_eq_ok.mp h
  exact slice_length (okOr_eq_ok.mp h)

theorem parts_content {n : ℕ} {parts : List (List UInt8)}
    (h : (List.range n).mapM (filePart codecs vol blocksStart size file) = .ok parts) :
    parts.flatten.length = min (n * vol.blockSize) size ∧
      ∀ i, i < min (n * vol.blockSize) size →
        parts.flatten[i]? = contentAt codecs vol blocksStart size file i := by
  induction n generalizing parts with
  | zero =>
    cases h
    rw [Nat.zero_mul, Nat.zero_min]
    exact ⟨rfl, fun i hi => absurd hi (Nat.not_lt_zero i)⟩
  | succ n ih =>
    rw [List.range_succ, List.mapM_append] at h
    obtain ⟨first, hfirst, h⟩ := bind_eq_ok.mp h
    obtain ⟨last, hlast, h⟩ := bind_eq_ok.mp h
    obtain ⟨part, rest, hpart, hnil, rfl⟩ := mapM_eq_ok_cons.mp hlast
    obtain rfl : [] = rest := Except.ok.inj hnil
    obtain rfl := Except.ok.inj h
    obtain ⟨hlen, hbytes⟩ := ih hfirst
    have hpartLen := filePart_length hpart
    have hheld : partLen vol size n = min vol.blockSize (size - n * vol.blockSize) := rfl
    rw [List.flatten_append, List.flatten_singleton, Nat.succ_mul]
    refine ⟨?_, ?_⟩
    · rw [List.length_append, hlen, hpartLen]
      omega
    · intro i hi
      refine append_getElem? hlen (fun hin => hbytes i hin) ?_
      rintro j rfl
      rw [filePart_byte hpart (by omega)]
      congr 1
      omega

theorem content_spec {whole : List UInt8}
    (h : content codecs vol blocksStart size file = .ok whole) :
    whole.length = size ∧
      ∀ i, i < size → whole[i]? = contentAt codecs vol blocksStart size file i := by
  obtain ⟨parts, hparts, h⟩ := bind_eq_ok.mp h
  cases h
  have hcover : size ≤ divCeil size vol.blockSize * vol.blockSize := by
    apply Nat.le_of_not_lt
    intro hlt
    exact Nat.lt_irrefl _ ((lt_divCeil_iff vol.blockSize_range.1).mpr hlt)
  have hspec := parts_content hparts
  rw [Nat.min_eq_right hcover] at hspec
  exact hspec

theorem parseFile_offsets {abs off headLen fragIdx fragOff : ℕ} {inode : SquashInode}
    (h : parseFile codecs vol abs off headLen blocksStart size fragIdx fragOff = .ok inode)
    (hbody : inode.body = .file file) :
    blockOffsets blocksStart file.blockSizes = .ok file.blockOffsets := by
  obtain ⟨len, -, h⟩ := bind_eq_ok.mp h
  obtain ⟨full, -, h⟩ := bind_eq_ok.mp h
  obtain ⟨sizes, -, h⟩ := bind_eq_ok.mp h
  obtain ⟨offsets, hoffsets, h⟩ := bind_eq_ok.mp h
  cases h
  cases hbody
  exact hoffsets

/-- The positions of a file's blocks follow from its record's `blocks_start`. -/
theorem parseInode_offsets {inodeRef : ℕ} {inode : SquashInode}
    (h : parseInode codecs vol inodeRef = .ok inode) (hbody : inode.body = .file file) :
    ∃ blocksStart, blocksStartOf codecs vol inodeRef = .ok blocksStart ∧
      blockOffsets blocksStart file.blockSizes = .ok file.blockOffsets := by
  obtain ⟨abs, habs, h⟩ := bind_eq_ok.mp h
  obtain ⟨head, hhead, h⟩ := bind_eq_ok.mp h
  obtain ⟨itype, hitype, h⟩ := bind_eq_ok.mp h
  rw [lift_self] at habs hitype
  unfold blocksStartOf
  rw [habs, ok_bind]
  dsimp only
  rw [hhead, ok_bind, hitype, ok_bind]
  unfold parseTyped at h
  split_ifs at h with hdir hextDir hfile hextFile hlink
  · obtain ⟨b, -, h⟩ := bind_eq_ok.mp h
    obtain ⟨dirSize, -, h⟩ := bind_eq_ok.mp h
    obtain ⟨start, -, h⟩ := bind_eq_ok.mp h
    obtain ⟨absBlock, -, h⟩ := bind_eq_ok.mp h
    obtain ⟨offset, -, h⟩ := bind_eq_ok.mp h
    cases h
    cases hbody
  · obtain ⟨b, -, h⟩ := bind_eq_ok.mp h
    obtain ⟨dirSize, -, h⟩ := bind_eq_ok.mp h
    obtain ⟨start, -, h⟩ := bind_eq_ok.mp h
    obtain ⟨absBlock, -, h⟩ := bind_eq_ok.mp h
    obtain ⟨offset, -, h⟩ := bind_eq_ok.mp h
    cases h
    cases hbody
  · obtain ⟨record, hrecord, h⟩ := bind_eq_ok.mp h
    obtain ⟨blocksStart, hstart, h⟩ := bind_eq_ok.mp h
    obtain ⟨fragIdx, -, h⟩ := bind_eq_ok.mp h
    obtain ⟨fragOff, -, h⟩ := bind_eq_ok.mp h
    obtain ⟨size, -, h⟩ := bind_eq_ok.mp h
    rw [if_pos hfile, hrecord, ok_bind]
    exact ⟨blocksStart, hstart, parseFile_offsets h hbody⟩
  · obtain ⟨record, hrecord, h⟩ := bind_eq_ok.mp h
    obtain ⟨blocksStart, hstart, h⟩ := bind_eq_ok.mp h
    obtain ⟨size, -, h⟩ := bind_eq_ok.mp h
    obtain ⟨fragIdx, -, h⟩ := bind_eq_ok.mp h
    obtain ⟨fragOff, -, h⟩ := bind_eq_ok.mp h
    rw [if_neg hfile, hrecord, ok_bind]
    exact ⟨blocksStart, hstart, parseFile_offsets h hbody⟩
  · obtain ⟨head, -, h⟩ := bind_eq_ok.mp h
    obtain ⟨len, -, h⟩ := bind_eq_ok.mp h
    obtain ⟨targetSize, -, h⟩ := bind_eq_ok.mp h
    obtain ⟨full, -, h⟩ := bind_eq_ok.mp h
    obtain ⟨target, -, h⟩ := bind_eq_ok.mp h
    cases h
    cases hbody
  · cases h
    cases hbody

theorem readBlock_asks (codecs : Codecs ρ)
    (hoffsets : blockOffsets blocksStart file.blockSizes = .ok file.blockOffsets)
    (k within want : ℕ) :
    (readBlock codecs vol file k within want : Asking _).Within
      (AsksBlock codecs vol blocksStart file k) := by
  unfold readBlock
  cases hraw : file.blockSizes[k]? with
  | some raw =>
    obtain ⟨hk, -⟩ := List.getElem?_eq_some_iff.mp hraw
    dsimp only
    split
    · exact Noted.within_of _ _
    · rename_i hlen
      refine Noted.within_bind.mpr ⟨Noted.within_of _ _, fun at_ hat => ?_⟩
      refine Noted.within_bind.mpr ⟨?_, fun block _ => Noted.within_of _ _⟩
      rw [blockOffsets_getElem? hoffsets hk] at hat
      obtain rfl := Except.ok.inj hat
      unfold readDataBlock
      rw [if_neg hlen]
      refine Noted.within_bind.mpr ⟨fun r hr => ?_, fun raw _ => Noted.within_of _ _⟩
      obtain rfl := List.mem_singleton.mp hr
      simp only [AsksBlock, hraw]
  | none =>
    dsimp only
    split
    · rename_i htail
      refine Noted.within_bind.mpr ⟨fun r hr => ?_, fun frag _ => Noted.within_of _ _⟩
      simp only [AsksBlock, hraw]
      exact ⟨htail.2, hr⟩
    · exact Noted.within_of _ _

/-- Nothing is asked but for blocks that the window meets. -/
theorem readBlocks_asks (codecs : Codecs ρ) (vol : Volume)
    (hoffsets : blockOffsets blocksStart file.blockSizes = .ok file.blockOffsets)
    (stop pos : ℕ) (out : List UInt8) :
    (readBlocks codecs vol size file stop pos out : Asking _).Within fun r =>
      ∃ k, Meets vol pos stop k ∧ AsksBlock codecs vol blocksStart file k r := by
  fun_induction readBlocks (m := Asking) codecs vol size file stop pos out with
  | case1 pos out hpos idx within ih =>
    refine Noted.within_bind.mpr ⟨Noted.within_of _ _, fun base _ => ?_⟩
    refine Noted.within_bind.mpr ⟨Noted.within_of _ _, fun left _ => ?_⟩
    refine Noted.within_bind.mpr ⟨Noted.within_of _ _, fun inBlock _ => ?_⟩
    dsimp only
    split
    · exact Noted.within_of _ _
    · rename_i hwant
      refine Noted.within_bind.mpr ⟨fun r hr => ?_, fun bytes _ r hr => ?_⟩
      · refine ⟨idx, ⟨Nat.le_refl _, ?_⟩, readBlock_asks codecs hoffsets idx within _ r hr⟩
        exact Nat.lt_of_le_of_lt (Nat.div_mul_le_self ..) hpos
      · obtain ⟨k, hmeets, hasks⟩ := ih inBlock hwant bytes r hr
        refine ⟨k, ⟨?_, hmeets.2⟩, hasks⟩
        exact Nat.le_trans (Nat.div_le_div_right (Nat.le_add_right ..)) hmeets.1
  | case2 pos out hpos => exact Noted.within_of _ _

/-- The node of a reference is the inode that the reference parses to. -/
structure KeyedBy (codecs : Codecs ρ) (vol : Volume) (fs : SquashFs) : Prop where
  vol_eq : fs.vol = vol
  nodes : fs.table.Keyed (parseInode codecs vol)

theorem frontend_keeps_keyed (vol : Volume) : (frontend codecs).Keeps (KeyedBy codecs vol) := by
  refine frontend_keeps ?_
  intro other entries hother
  rw [hother.vol_eq]
  refine Preserves.zoom (P := fun t => t.Keyed (parseInode codecs vol)) ?_ (fun fs hfs => hfs.nodes) ?_
  · exact InternTable.internAll_preserves fun t r child _ hparse ht => ht.intern hparse
  · intro t fs ht hfs
    exact ⟨hfs.vol_eq, ht⟩

theorem mount_keyed {src : Source} {fs : SquashFs} (h : mount codecs src = .ok fs) :
    KeyedBy codecs fs.vol fs := by
  obtain ⟨⟨vol, rootRef⟩, -, h⟩ := bind_eq_ok.mp h
  obtain ⟨root, hroot, h⟩ := bind_eq_ok.mp h
  obtain rfl := Except.ok.inj h
  exact ⟨rfl, (InternTable.keyed_empty _).intern hroot⟩

/-- A read is the window of the file's content, or fails over a block that the window
meets. -/
theorem readFile_content
    (hoffsets : blockOffsets blocksStart file.blockSizes = .ok file.blockOffsets)
    (hsize : size < 2 ^ 64) {off : ℕ} {buf : List UInt8}
    (hanswered : Answered (readFile codecs vol size file off buf)) :
    (∃ e k, readFile codecs vol size file off buf = .error (.err e) ∧
        Meets vol off (min size (off + buf.length)) k ∧
        Unreadable codecs vol blocksStart size file k) ∨
      ∃ out, readFile codecs vol size file off buf =
          .ok (min size (off + buf.length) - off, out) ∧
        out.length = buf.length ∧
        ∀ i, off + i < min size (off + buf.length) →
          out[i]? = contentAt codecs vol blocksStart size file (off + i) := by
  unfold readFile at hanswered ⊢
  split
  · right
    refine ⟨buf, ?_, rfl, fun i hi => absurd hi (by omega)⟩
    rw [show min size (off + buf.length) - off = 0 by omega]
    rfl
  · rename_i hoff
    rw [if_neg hoff, answered_bind, lift_self, answered_fits] at hanswered
    obtain ⟨hfits, hanswered⟩ := hanswered
    have hasked : u64 (off + buf.length) = .ok (off + buf.length) := fits_eq_ok.mpr ⟨hfits, rfl⟩
    have hanswered := hanswered _ hasked
    rw [hasked, lift_ok_bind]
    dsimp only at hanswered ⊢
    obtain ⟨stop, hstop⟩ : ∃ stop, stop = min size (off + buf.length) := ⟨_, rfl⟩
    rw [← hstop] at hanswered ⊢
    rcases readBlocks_content codecs vol hoffsets hsize
      (show off ≤ stop by omega) (show stop ≤ size by omega) [] with
      ⟨bytes, hread, hlen, hbytes⟩ | ⟨e, k, hread, hmeets, hunreadable⟩
    · right
      rw [List.nil_append] at hread
      have hroom : 0 + bytes.length ≤ buf.length := by omega
      refine ⟨overwrite buf 0 bytes, ?_, overwrite_length hroom, ?_⟩
      · rw [hread]
        rfl
      · intro i hi
        rw [← hbytes i hi, ← overwrite_getElem?_of_mem hroom (by omega), Nat.zero_add]
    · left
      rw [hread, error_bind] at hanswered ⊢
      obtain ⟨reported, rfl⟩ := answered_error.mp hanswered
      exact ⟨reported, k, rfl, hmeets, hunreadable⟩

theorem readFile_congr {file' : FileBody} (hsize : size < 2 ^ 64) {off : ℕ} {buf : List UInt8}
    (hsame : ∀ k within want, Meets vol off (min size (off + buf.length)) k →
      readBlock codecs vol file' k within want = readBlock codecs vol file k within want) :
    readFile codecs vol size file' off buf = readFile codecs vol size file off buf := by
  unfold readFile
  split
  · rfl
  · unfold u64 fits
    split
    · rw [lift_ok_bind, lift_ok_bind]
      dsimp only
      rw [readBlocks_congr hsize (Nat.min_le_left ..) hsame]
    · rfl

/-- What a read asks of the source. -/
theorem readAt_asks (codecs : Codecs ρ) {t : SquashFs} {node : NodeId} {inode : SquashInode}
    (hinode : t.table.inode node = .ok inode) (hbody : inode.body = .file file)
    (hoffsets : blockOffsets blocksStart file.blockSizes = .ok file.blockOffsets)
    (off : ℕ) (buf : List UInt8) :
    TracksAt (fun r => ∃ k, Meets t.vol off (min inode.size (off + buf.length)) k ∧
        AsksBlock codecs t.vol blocksStart file k r)
      (readAt (m := Asking) codecs node off buf) (readAt codecs node off buf) t := by
  refine .bind (asks_inode node t) fun found u hrun => ?_
  rw [exec_inode, hinode] at hrun
  cases hrun
  rw [hbody]
  refine .get_bind (.keep ⟨(asks_readFile codecs t.vol inode.size file off buf).result, ?_⟩ t)
  unfold readFile
  dsimp only
  split
  · exact Noted.within_of _ _
  · refine Noted.within_bind.mpr ⟨Noted.within_of _ _, fun asked hasked => ?_⟩
    obtain ⟨-, rfl⟩ := fits_eq_ok.mp hasked
    exact Noted.within_bind.mpr
      ⟨readBlocks_asks codecs t.vol hoffsets _ off [], fun data _ => Noted.within_of _ _⟩

/-- In any state that a mounted volume can reach, for the node of any file: a read fails
over a block that its window meets, or returns its window of the content; blocks that
the window does not meet do not matter to it, and nothing is asked for them. -/
theorem readAt_fileWindow (codecs : Codecs ρ) {src : Source} {fs t : SquashFs} {node : NodeId}
    {inodeRef off : ℕ} {inode : SquashInode} {file : FileBody} {buf : List UInt8}
    (hmount : mount codecs src = .ok fs) (hrun : Reaches (fun _ : Unit => frontend codecs) fs t)
    (hkey : (inodeRef, node) ∈ t.table.byKey) (hinode : t.table.inode node = .ok inode)
    (hbody : inode.body = .file file) (hfits : CallFits codecs t (.readAt node off buf)) :
    ∃ blocksStart, blocksStartOf codecs t.vol inodeRef = .ok blocksStart ∧
      ((∃ e k, (exec (readAt codecs node off buf) t).1 = .error (.err e) ∧
          Meets t.vol off (min inode.size (off + buf.length)) k ∧
          Unreadable codecs t.vol blocksStart inode.size file k) ∨
        ∃ out, (exec (readAt codecs node off buf) t).1 =
            .ok (min inode.size (off + buf.length) - off, out) ∧
          out.length = buf.length ∧
          (∀ i, off + i < min inode.size (off + buf.length) →
            out[i]? = contentAt codecs t.vol blocksStart inode.size file (off + i)) ∧
          ∀ whole, content codecs t.vol blocksStart inode.size file = .ok whole →
            whole.length = inode.size ∧
              ∀ i, off + i < min inode.size (off + buf.length) → out[i]? = whole[off + i]?) ∧
      (∀ file', (∀ k within want, Meets t.vol off (min inode.size (off + buf.length)) k →
          readBlock codecs t.vol file' k within want = readBlock codecs t.vol file k within want) →
        readFile codecs t.vol inode.size file' off buf = (exec (readAt codecs node off buf) t).1) ∧
      ∀ r ∈ (recordedMethods codecs).requests (.readAt node off buf) t,
        ∃ k, Meets t.vol off (min inode.size (off + buf.length)) k ∧
          AsksBlock codecs t.vol blocksStart file k r := by
  have hkeyed := hrun.keeps (fun _ => frontend_keeps_keyed fs.vol) (mount_keyed hmount)
  have hopened := hrun.keeps (fun _ => frontend_keeps_opened fs.vol) (mount_opened hmount)
  have hsize := (hopened.nodes.inode hinode).size_lt
  obtain ⟨found, hfound, hparse⟩ := hkeyed.nodes inodeRef node hkey
  obtain rfl : found = inode :=
    Option.some.inj (hfound.symm.trans (InternTable.inode_eq_ok.mp hinode))
  rw [← hkeyed.vol_eq] at hparse
  obtain ⟨blocksStart, hstart, hoffsets⟩ := parseInode_offsets hparse hbody
  have hexec : (exec (readAt codecs node off buf) t).1 =
      readFile codecs t.vol found.size file off buf := by
    unfold readAt
    rw [exec_bind, exec_inode, hinode]
    dsimp only
    rw [hbody]
    rfl
  have hanswered := (answered_readAt_iff hopened.nodes).mpr hfits
  rw [hexec] at hanswered ⊢
  refine ⟨blocksStart, hstart, ?_, fun file' hsame => readFile_congr hsize hsame,
    fun r hr => (readAt_asks codecs hinode hbody hoffsets off buf).notes hr⟩
  rcases readFile_content hoffsets hsize hanswered with herror | ⟨out, hread, hlen, hbytes⟩
  · exact .inl herror
  · refine .inr ⟨out, hread, hlen, hbytes, ?_⟩
    intro whole hwhole
    obtain ⟨hwholeLen, hwholeBytes⟩ := content_spec hwhole
    refine ⟨hwholeLen, ?_⟩
    intro i hi
    rw [hbytes i hi, hwholeBytes _ (by omega)]

/-- A volume whose root is a file of three bytes in one stored block. -/
def threeBytes : Source where
  content := superblock [0, 0, 0, 0, 0, 0, 0, 0] [96, 0, 0, 0, 0, 0, 0, 0] ++
    [36, 0x80] ++ [2, 0] ++ List.replicate 14 0 ++ [134, 0, 0, 0, 255, 255, 255, 255] ++
    List.replicate 4 0 ++ [3, 0, 0, 0] ++ [3, 0, 0, 1] ++ [7, 8, 9]
  length_lt := by decide +kernel

def threeBytesBody : FileBody := ⟨[3 + 1 <<< 24], [134], noFragment, 0⟩

theorem minBlock_bounds : 0 < 4096 ∧ 4096 ≤ 1 <<< 20 := by decide

def threeBytesMount : SquashFs :=
  ⟨⟨threeBytes, .zlib, 4096, minBlock_bounds, 96, 0, 0⟩,
    (InternTable.empty.intern 0 ⟨.regular, 3, .file threeBytesBody⟩).2⟩

theorem mount_threeBytes : mount noStreams threeBytes = .ok threeBytesMount := by
  have hopen : openVolume threeBytes = .ok (threeBytesMount.vol, 0) := by decide +kernel
  have hroot : parseInode noStreams threeBytesMount.vol 0 =
      .ok ⟨.regular, 3, .file threeBytesBody⟩ := by decide +kernel
  exact bind_eq_ok.mpr ⟨_, hopen, bind_eq_ok.mpr ⟨_, hroot, rfl⟩⟩

/-- Two of the bytes are read, from the one block of the file. -/
theorem readAt_fileWindow_threeBytes :
    (∃ out, (exec (readAt noStreams 0 1 [0, 0, 0]) threeBytesMount).1 = .ok (2, out) ∧
        out.length = 3 ∧ out[0]? = some 8 ∧ out[1]? = some 9) ∧
      ∀ r ∈ (recordedMethods noStreams).requests (.readAt 0 1 [0, 0, 0]) threeBytesMount,
        r = ⟨134, 3⟩ := by
  have hfits : CallFits noStreams threeBytesMount (.readAt 0 1 [0, 0, 0]) := by
    intro inode file hinode hbody
    cases hinode
    cases hbody
    exact fun _ => ⟨by decide, fun _ => by decide⟩
  have hinode : threeBytesMount.table.inode 0 = .ok ⟨.regular, 3, .file threeBytesBody⟩ := rfl
  have hstart : blocksStartOf noStreams threeBytesMount.vol 0 = .ok 134 := by decide +kernel
  have hpart : filePart noStreams threeBytesMount.vol 134 3 threeBytesBody 0 = .ok [7, 8, 9] := by
    decide +kernel
  have hmeets : ∀ k, Meets threeBytesMount.vol 1 3 k → k = 0 := by
    rintro k ⟨-, hk⟩
    change k * 4096 < 3 at hk
    omega
  obtain ⟨start, hstart', hread, -, hasked⟩ :=
    readAt_fileWindow noStreams mount_threeBytes .refl (.head _) hinode rfl hfits
  obtain rfl : 134 = start := Except.ok.inj (hstart.symm.trans hstart')
  constructor
  · rcases hread with ⟨e, k, -, hmeet, hunreadable⟩ | ⟨out, hout, hlen, hbytes, -⟩
    · obtain rfl := hmeets k hmeet
      exact absurd hpart (hunreadable _)
    · have hfirst : contentAt noStreams threeBytesMount.vol 134 3 threeBytesBody 1 = some 8 := by
        decide +kernel
      have hsecond : contentAt noStreams threeBytesMount.vol 134 3 threeBytesBody 2 = some 9 := by
        decide +kernel
      exact ⟨out, hout, hlen, (hbytes 0 (by decide)).trans hfirst,
        (hbytes 1 (by decide)).trans hsecond⟩
  · intro r hr
    obtain ⟨k, hmeet, hasks⟩ := hasked r hr
    obtain rfl := hmeets k hmeet
    exact hasks

end Lamfold.SquashFs
