import Lamfold.ErofsShepherd

/-!
The data path of EROFS with every index and every subtraction checked, and each
piece of data written to its place in the buffer. Nothing is ever out of range:
in the states of a volume these are the operations without the checks.
-/
namespace Lamfold.Erofs

open Effects Bytes

namespace Checked

/-- `src.read_at(disk, &mut buf[start..start + n])`. -/
def readInto (src : Source) (disk : ℕ) (buf : List UInt8) (start n : ℕ) :
    Outcome (List UInt8) := do
  let _ ← unwrap (slice buf start n)
  let bytes ← src.readAt disk n
  return overwrite buf start bytes

/-- `buf[start..start + n].copy_from_slice(bytes)`. -/
def copyInto (buf : List UInt8) (start n : ℕ) (bytes : List UInt8) : Outcome (List UInt8) := do
  let dst ← unwrap (slice buf start n)
  if bytes.length = dst.length then return overwrite buf start bytes
  else .error .panic

def readInline (vol : Volume) (inode : Inode) (fullBytes base off stop p : ℕ)
    (buf : List UInt8) : Outcome (List UInt8) :=
  if p < stop then
    if p < fullBytes then do
      let segEnd := min stop fullBytes
      let disk ← u64 (base + p)
      let n ← minus (min stop fullBytes) p
      let bo ← minus p off
      let buf ← readInto vol.src disk buf bo n
      readInline vol inode fullBytes base off stop segEnd buf
    else do
      let past ← minus p fullBytes
      let disk ← u64 (inode.inlineOff + past)
      let n ← minus stop p
      let bo ← minus p off
      readInto vol.src disk buf bo n
  else pure buf
  termination_by stop - p

def readChunk (vol : Volume) (table idx within bo n : ℕ) (buf : List UInt8) :
    Outcome (List UInt8) := do
  let entry ← u64 (table + idx * 4)
  let e ← vol.src.readAt entry 4
  let blkaddr := leNat e
  if blkaddr = nullBlkaddr then copyInto buf bo n (List.replicate n 0)
  else do
    let disk ← u64 (blkaddr * vol.blockSize + within)
    readInto vol.src disk buf bo n

def readChunks (vol : Volume) (chunkbits table off stop p : ℕ) (buf : List UInt8) :
    Outcome (List UInt8) :=
  if p < stop then do
    let idx := p / 2 ^ chunkbits
    let within := p % 2 ^ chunkbits
    let _ ← u64 ((idx + 1) * 2 ^ chunkbits)
    let segEnd := min stop ((p / 2 ^ chunkbits + 1) * 2 ^ chunkbits)
    let n ← minus segEnd p
    let bo ← minus p off
    let buf ← readChunk vol table idx within bo n buf
    readChunks vol chunkbits table off stop segEnd buf
  else pure buf
  termination_by stop - p
  decreasing_by
    have hlt : p < (p / 2 ^ chunkbits + 1) * 2 ^ chunkbits := by
      rw [Nat.mul_comm]
      exact Nat.lt_mul_div_succ p (Nat.two_pow_pos chunkbits)
    omega

def readChunked (vol : Volume) (inode : Inode) (off stop : ℕ) (buf : List UInt8) :
    Outcome (List UInt8) := do
  let format := inode.rawBlkaddr % 2 ^ 16
  let chunkbits := vol.blkszbits + (format &&& chunkBlkbitsMask)
  if format &&& (0xffff - chunkFormatAll) ≠ 0 then
    fail (.corrupt "erofs: unknown chunk format bits")
  else if format &&& chunk48bit ≠ 0 then
    fail (.unsupported "erofs: 48-bit chunk indexes not supported")
  else if chunkbits > 40 then fail (.corrupt "erofs: implausible chunk size")
  else if format &&& chunkIndexes ≠ 0 then
    fail (.unsupported "erofs: chunk indexes not supported")
  else do
    let aligned ← u64 (inode.inlineOff + 3)
    readChunks vol chunkbits (aligned / 4 * 4) off stop off buf

def readFlat (vol : Volume) (inode : Inode) (off stop total : ℕ) (buf : List UInt8) :
    Outcome (List UInt8) :=
  if inode.layout = flatPlain then do
    let base ← u64 (inode.rawBlkaddr * vol.blockSize)
    let disk ← u64 (base + off)
    readInto vol.src disk buf 0 total
  else if inode.layout = flatInline then do
    let fullBytes := inode.size / vol.blockSize * vol.blockSize
    let base ← u64 (inode.rawBlkaddr * vol.blockSize)
    readInline vol inode fullBytes base off stop off buf
  else if inode.layout = chunkBased then readChunked vol inode off stop buf
  else fail (.unsupported "erofs: unknown datalayout")

section Methods

variable {ρ : Type} (codecs : Codecs ρ)

def readDecoded (nid : NodeId) (off total : ℕ) (buf : List UInt8) :
    Method Erofs (List UInt8) := do
  materializeCompressed codecs nid
  let fs ← get
  let data ← okOr fs.decoded[nid]? (.corrupt "erofs: decode cache miss")
  let _ ← u64 (off + total)
  let seg ← okOr (slice data off total) (.corrupt "erofs: decoded read past end")
  copyInto buf 0 total seg

def readLayout (nid : NodeId) (inode : Inode) (off stop total : ℕ) (buf : List UInt8) :
    Method Erofs (List UInt8) :=
  if inode.layout = compressedFull ∨ inode.layout = compressedCompact then
    readDecoded codecs nid off total buf
  else do
    let fs ← get
    readFlat fs.vol inode off stop total buf

def readInodeData (nid : NodeId) (off : ℕ) (buf : List UInt8) :
    Method Erofs (ℕ × List UInt8) := do
  let inode ← inode nid
  if off ≥ inode.size then return (0, buf)
  else do
    let asked ← u64 (off + buf.length)
    let stop := min asked inode.size
    let total ← minus stop off
    let buf ← readLayout codecs nid inode off stop total buf
    return (total, buf)

/-- `read_inode_data(node, block_start, &mut block[..block_len])`. -/
def fillBlock (node : NodeId) (blockStart blockLen : ℕ) : Method Window Unit := do
  let w ← get
  let dst ← unwrap (slice w.block 0 blockLen)
  let (_, filled) ← onVolume (readInodeData codecs node blockStart dst)
  modify fun w => { w with block := overwrite w.block 0 filled }

/-- `verify_block(node, block_start, &block[..block_len])`. -/
def verifyBlock (verifier : Verifier) (node : NodeId) (blockStart blockLen : ℕ) :
    Method Window Unit := do
  let w ← get
  let data ← unwrap (slice w.block 0 blockLen)
  let answer := verifier node blockStart data
  set { w with events := w.events ++ [Event.verified blockStart data answer] }
  answer

def surface (off stop blockStart blockLen : ℕ) : Method Window ℕ := do
  let blockEnd ← u64 (blockStart + blockLen)
  let copyStart := max off blockStart
  let copyEnd := min stop blockEnd
  if copyEnd > copyStart then do
    let srcLo ← minus copyStart blockStart
    let dstLo ← minus copyStart off
    let cnt ← minus copyEnd copyStart
    let w ← get
    let bytes ← unwrap (slice w.block srcLo cnt)
    let buf ← copyInto w.buf dstLo cnt bytes
    set { w with buf := buf, events := w.events ++ [Event.surfaced blockStart dstLo bytes] }
    return cnt
  else return 0

def readBlocks (verifier : Verifier) (node : NodeId) (vol : Volume)
    (off stop size blockStart produced : ℕ) : Method Window ℕ :=
  if blockStart < stop then do
    let left ← minus size blockStart
    let blockLen := min vol.blockSize left
    fillBlock codecs node blockStart blockLen
    verifyBlock verifier node blockStart blockLen
    let count ← surface off stop blockStart blockLen
    let _ ← u64 (blockStart + vol.blockSize)
    readBlocks verifier node vol off stop size (blockStart + vol.blockSize) (produced + count)
  else return produced
  termination_by stop - blockStart
  decreasing_by
    have hbs := vol.blockSize_pos
    omega

/-- The data path with the checks. -/
def dataPath : DataPath Id := ⟨readInodeData codecs, readBlocks codecs⟩

def frontend (verifier : Verifier) : FoldFrontend Erofs :=
  (dataPath codecs).frontend (m := Outcome) verifier

end Methods

end Checked

/-- A read into a window of the buffer that is there. -/
theorem readInto_eq {src : Source} {disk start n : ℕ} {buf : List UInt8}
    (h : start + n ≤ buf.length) :
    Checked.readInto src disk buf start n = (src.readAt disk n).map (overwrite buf start) := by
  have hdst : slice buf start n = some ((buf.drop start).take n) := slice_eq_some.mpr ⟨h, rfl⟩
  unfold Checked.readInto
  rw [hdst, unwrap, ok_bind]
  cases src.readAt disk n <;> rfl

theorem copyInto_eq {buf bytes : List UInt8} {start n : ℕ} (h : start + n ≤ buf.length)
    (hlen : bytes.length = n) :
    Checked.copyInto buf start n bytes = .ok (overwrite buf start bytes) := by
  have hdst : slice buf start n = some ((buf.drop start).take n) := slice_eq_some.mpr ⟨h, rfl⟩
  have hsame := slice_length hdst
  unfold Checked.copyInto
  rw [hdst, unwrap, ok_bind, if_pos (hlen.trans hsame.symm)]
  rfl

theorem minus_of_le {a b : ℕ} (h : b ≤ a) : minus a b = .ok (a - b) := if_pos h

section Data

variable {vol : Volume} {inode : Inode} {off stop : ℕ} {buf : List UInt8}

/-- Every piece of an inline file fits the buffer. -/
theorem readInline_eq {fullBytes base p : ℕ} (hp : off ≤ p) (hbuf : stop ≤ off + buf.length) :
    Checked.readInline vol inode fullBytes base off stop p buf =
      (readInline vol inode fullBytes base stop p).map (overwrite buf (p - off)) := by
  fun_induction readInline vol inode fullBytes base stop p generalizing buf with
  | case1 p hlt hfull segEnd =>
    rename_i ih
    rw [Checked.readInline, if_pos hlt, if_pos hfull]
    dsimp only
    cases u64 (base + p) with
    | error e => rfl
    | ok disk =>
      have hfits : p - off + (segEnd - p) ≤ buf.length := by omega
      rw [ok_bind, lift_ok_bind, minus_of_le (by omega), ok_bind, minus_of_le hp, ok_bind,
        readInto_eq hfits]
      cases hseg : vol.src.readAt disk (segEnd - p) with
      | error e => rfl
      | ok seg =>
        have hlen := Source.readAt_length hseg
        have hwritten : p - off + seg.length ≤ buf.length := by omega
        have hnext : segEnd - off = p - off + seg.length := by omega
        rw [Except.map, ok_bind, ok_bind, ih (by omega) (by rw [overwrite_length hwritten]; exact hbuf)]
        cases readInline vol inode fullBytes base stop segEnd with
        | error e => rfl
        | ok rest =>
          rw [hnext]
          exact congrArg Except.ok (overwrite_append hwritten rest)
  | case2 p hlt hfull =>
    rw [Checked.readInline, if_pos hlt, if_neg hfull, minus_of_le (by omega), ok_bind]
    cases u64 (inode.inlineOff + (p - fullBytes)) with
    | error e => rfl
    | ok disk =>
      rw [ok_bind, lift_ok_bind, minus_of_le (by omega), ok_bind, minus_of_le hp, ok_bind,
        readInto_eq (by omega)]
  | case3 p hge =>
    rw [Checked.readInline, if_neg hge]
    exact congrArg Except.ok (overwrite_nil buf _).symm

theorem readChunk_eq {table idx within bo n : ℕ} (hfits : bo + n ≤ buf.length) :
    Checked.readChunk vol table idx within bo n buf =
      (readChunk vol table idx within n).map (overwrite buf bo) := by
  unfold Checked.readChunk readChunk
  cases u64 (table + idx * 4) with
  | error e => rfl
  | ok entry =>
    rw [ok_bind, lift_ok_bind]
    cases vol.src.readAt entry 4 with
    | error e => rfl
    | ok e =>
      rw [ok_bind, ok_bind]
      by_cases hhole : leNat e = nullBlkaddr
      · simp only [if_pos hhole]
        exact copyInto_eq hfits List.length_replicate
      · simp only [if_neg hhole]
        cases u64 (leNat e * vol.blockSize + within) with
        | error e => rfl
        | ok disk =>
          rw [ok_bind, lift_ok_bind]
          exact readInto_eq hfits

/-- Every chunk fits the buffer. -/
theorem readChunks_eq {chunkbits table p : ℕ} (hp : off ≤ p) (hbuf : stop ≤ off + buf.length) :
    Checked.readChunks vol chunkbits table off stop p buf =
      (readChunks vol chunkbits table stop p).map (overwrite buf (p - off)) := by
  fun_induction readChunks vol chunkbits table stop p generalizing buf with
  | case1 p hlt idx within =>
    rename_i ih
    have hchunk : p < (p / 2 ^ chunkbits + 1) * 2 ^ chunkbits := by
      rw [Nat.mul_comm]
      exact Nat.lt_mul_div_succ p (Nat.two_pow_pos chunkbits)
    obtain ⟨segEnd, hsegEnd⟩ : ∃ segEnd,
        segEnd = min stop ((p / 2 ^ chunkbits + 1) * 2 ^ chunkbits) := ⟨_, rfl⟩
    rw [Checked.readChunks, if_pos hlt]
    simp only [← hsegEnd] at ih ⊢
    cases u64 ((idx + 1) * 2 ^ chunkbits) with
    | error e => rfl
    | ok _ =>
      have hfits : p - off + (segEnd - p) ≤ buf.length := by omega
      rw [ok_bind, lift_ok_bind, minus_of_le (by omega), ok_bind, minus_of_le hp, ok_bind,
        readChunk_eq hfits]
      cases hseg : readChunk vol table idx within (segEnd - p) with
      | error e => rfl
      | ok seg =>
        have hlen := readChunk_length hseg
        have hwritten : p - off + seg.length ≤ buf.length := by omega
        have hnext : segEnd - off = p - off + seg.length := by omega
        rw [Except.map, ok_bind, ok_bind, ih (by omega) (by rw [overwrite_length hwritten]; exact hbuf)]
        cases readChunks vol chunkbits table stop segEnd with
        | error e => rfl
        | ok rest =>
          rw [hnext]
          exact congrArg Except.ok (overwrite_append hwritten rest)
  | case2 p hge =>
    rw [Checked.readChunks, if_neg hge]
    exact congrArg Except.ok (overwrite_nil buf _).symm

theorem readChunked_eq (hbuf : stop ≤ off + buf.length) :
    Checked.readChunked vol inode off stop buf =
      (readChunked vol inode off stop).map (overwrite buf 0) := by
  unfold Checked.readChunked readChunked
  dsimp only
  split_ifs
  · rfl
  · rfl
  · rfl
  · rfl
  · cases u64 (inode.inlineOff + 3) with
    | error e => rfl
    | ok aligned =>
      rw [ok_bind, lift_ok_bind]
      refine (readChunks_eq (Nat.le_refl off) hbuf).trans ?_
      rw [Nat.sub_self]

theorem readFlat_eq (hbuf : stop ≤ off + buf.length) :
    Checked.readFlat vol inode off stop (stop - off) buf =
      (readFlat vol inode off stop).map (overwrite buf 0) := by
  unfold Checked.readFlat readFlat
  split_ifs
  · cases u64 (inode.rawBlkaddr * vol.blockSize) with
    | error e => rfl
    | ok base =>
      rw [ok_bind, lift_ok_bind]
      cases u64 (base + off) with
      | error e => rfl
      | ok disk =>
        rw [ok_bind, lift_ok_bind]
        exact readInto_eq (by omega)
  · cases u64 (inode.rawBlkaddr * vol.blockSize) with
    | error e => rfl
    | ok base =>
      rw [ok_bind, lift_ok_bind]
      refine (readInline_eq (Nat.le_refl off) hbuf).trans ?_
      rw [Nat.sub_self]
  · exact readChunked_eq hbuf
  · rfl

end Data

/-- The size field of a compact or an extended inode. -/
def sizeField (format : ℕ) (hdr : List UInt8) : Outcome ℕ :=
  if format &&& 1 ≠ 0 then leU64 hdr 8 else leU32 hdr 8

/-- The bytes of the inode and of the xattrs behind it. -/
def headLen (format xattrIcount : ℕ) : ℕ :=
  (if format &&& 1 ≠ 0 then 64 else 32) +
    if xattrIcount = 0 then 0 else 12 + (xattrIcount - 1) * 4

theorem readInode_eq (vol : Volume) (nid : NodeId) :
    readInode vol nid = (do
      let off ← inodeOffset vol nid
      let hdr ← inodeBytes vol off
      let format ← leU16 hdr 0
      let xattrIcount ← leU16 hdr 2
      let mode ← leU16 hdr 4
      let size ← sizeField format hdr
      let rawBlkaddr ← leU32 hdr 16
      let inlineOff ← u64 (off + headLen format xattrIcount)
      return ⟨modeKind mode, size, mode, (format >>> 1) &&& 7, rawBlkaddr, inlineOff⟩) := by
  unfold readInode
  refine bind_congr fun off => ?_
  refine bind_congr fun hdr => ?_
  refine bind_congr fun format => ?_
  refine bind_congr fun xattrIcount => ?_
  refine bind_congr fun mode => ?_
  unfold sizeField headLen
  simp only [← Nat.add_assoc]
  by_cases hext : format &&& 1 ≠ 0
  · simp only [if_pos hext]
    rfl
  · simp only [if_neg hext]
    rfl

/-- The fields of an inode fit the source's types. -/
structure Inode.Bounded (inode : Inode) : Prop where
  size_lt : inode.size < 2 ^ 64
  rawBlkaddr_lt : inode.rawBlkaddr < 2 ^ 32
  inlineOff_lt : inode.inlineOff < 2 ^ 64

/-- A parsed inode is bounded. -/
theorem readInode_bounded {vol : Volume} {nid : NodeId} {inode : Inode}
    (h : readInode vol nid = .ok inode) : inode.Bounded := by
  rw [readInode_eq] at h
  obtain ⟨off, -, h⟩ := bind_eq_ok.mp h
  obtain ⟨hdr, -, h⟩ := bind_eq_ok.mp h
  obtain ⟨format, -, h⟩ := bind_eq_ok.mp h
  obtain ⟨xattrIcount, -, h⟩ := bind_eq_ok.mp h
  obtain ⟨mode, -, h⟩ := bind_eq_ok.mp h
  obtain ⟨size, hsize, h⟩ := bind_eq_ok.mp h
  obtain ⟨rawBlkaddr, hraw, h⟩ := bind_eq_ok.mp h
  obtain ⟨inlineOff, hinline, h⟩ := bind_eq_ok.mp h
  obtain rfl := Except.ok.inj h
  obtain ⟨hlt, rfl⟩ := fits_eq_ok.mp hinline
  refine ⟨?_, leAt_lt hraw, hlt⟩
  unfold sizeField at hsize
  split_ifs at hsize
  · exact leAt_lt hsize
  · exact Nat.lt_trans (leAt_lt hsize) (by decide)

section Methods

variable {ρ : Type} {codecs : Codecs ρ}

theorem exec_readDecoded {nid : NodeId} {off stop : ℕ} {buf : List UInt8} {fs : Erofs}
    (hoff : off ≤ stop) (hstop : stop < 2 ^ 64) (hbuf : stop ≤ off + buf.length) :
    exec (Checked.readDecoded codecs nid off (stop - off) buf) fs =
      exec (readDecoded codecs nid off stop >>= fun seg => pure (overwrite buf 0 seg)) fs := by
  have hend : u64 (off + (stop - off)) = .ok (off + (stop - off)) :=
    fits_eq_ok.mpr ⟨by omega, rfl⟩
  unfold Checked.readDecoded readDecoded
  simp only [bind_assoc, hend]
  refine exec_bind_congr rfl fun _ t _ => ?_
  refine exec_bind_congr rfl fun fs' u _ => ?_
  refine exec_bind_congr rfl fun data u' _ => ?_
  rw [exec_bind_of_ok (exec_lift (Except.ok _) u')]
  refine exec_bind_congr rfl fun seg v hseg => ?_
  have hslice := okOr_eq_ok.mp (Prod.mk.inj hseg).1
  rw [copyInto_eq (by omega) (slice_length hslice)]
  rfl

theorem exec_readLayout {nid : NodeId} {inode : Inode} {off stop : ℕ} {buf : List UInt8}
    {fs : Erofs} (hoff : off ≤ stop) (hstop : stop < 2 ^ 64) (hbuf : stop ≤ off + buf.length) :
    exec (Checked.readLayout codecs nid inode off stop (stop - off) buf) fs =
      exec (readLayout codecs nid inode off stop >>= fun seg => pure (overwrite buf 0 seg)) fs := by
  unfold Checked.readLayout readLayout
  split_ifs
  · exact exec_readDecoded hoff hstop hbuf
  · rw [bind_assoc]
    refine exec_bind_congr rfl fun fs' t _ => ?_
    rw [readFlat_eq hbuf, exec_bind, exec_lift, exec_lift]
    cases readFlat fs'.vol inode off stop <;> rfl

theorem exec_readInodeData (nid : NodeId) (off : ℕ) (buf : List UInt8) (fs : Erofs) :
    exec (Checked.readInodeData codecs nid off buf) fs =
      exec (readInodeData codecs nid off buf) fs := by
  unfold Checked.readInodeData readInodeData
  refine exec_bind_congr rfl fun inode t _ => ?_
  by_cases hoff : off ≥ inode.size
  · rw [if_pos hoff, if_pos hoff]
  · rw [if_neg hoff, if_neg hoff]
    refine exec_bind_congr rfl fun asked u hasked => ?_
    obtain ⟨hlt, rfl⟩ := fits_eq_ok.mp (Prod.mk.inj hasked).1
    have hle : off ≤ min (off + buf.length) inode.size := by omega
    simp only [minus_of_le hle]
    rw [exec_bind, exec_lift]
    dsimp only
    rw [exec_bind, exec_readLayout hle (by omega) (by omega), ← exec_bind, bind_assoc]
    rfl

/-- Data is read alike into every buffer. -/
theorem readInodeData_eq (nid : NodeId) (off : ℕ) (buf : List UInt8) :
    Checked.readInodeData codecs nid off buf = readInodeData codecs nid off buf :=
  op_ext (exec_readInodeData nid off buf)

theorem readDir_eq (dir : NodeId) :
    (Checked.dataPath codecs).readDir dir = (dataPath codecs).readDir dir := by
  unfold DataPath.readDir Checked.dataPath dataPath
  simp only [readInodeData_eq]

theorem lookup_eq (dir : NodeId) (name : Str) :
    (Checked.dataPath codecs).lookup dir name = (dataPath codecs).lookup dir name := by
  unfold DataPath.lookup
  rw [readDir_eq]

theorem readLink_eq (node : NodeId) :
    (Checked.dataPath codecs).readLink node = (dataPath codecs).readLink node := by
  unfold DataPath.readLink Checked.dataPath dataPath
  simp only [readInodeData_eq]

/-- The scratch block is a block, and the caller's buffer holds the window. -/
structure Room (bs off stop : ℕ) (w : Window) : Prop where
  block_length : w.block.length = bs
  buf_length : stop ≤ off + w.buf.length

section Blocks

variable {verifier : Verifier} {node : NodeId} {bs off stop blockStart blockLen : ℕ}

theorem readInodeData_length {nid : NodeId} {buf : List UInt8} {fs t : Erofs}
    {r : ℕ × List UInt8} (h : exec (readInodeData codecs nid off buf) fs = (.ok r, t)) :
    r.2.length = buf.length := by
  obtain ⟨inode, u, hinode, -⟩ := exec_bind_eq_ok.mp h
  rw [exec_inode] at hinode
  have hfound := okOr_eq_ok.mp (Prod.mk.inj hinode).1
  have hspec : Triple _ (readInodeData codecs nid off buf) _ _ :=
    readInodeData_spec nid inode fs.vol.blockSize off buf
  exact (hspec.of_ok ⟨hfound, rfl⟩ h).2

/-- Filling a block leaves the room there is. -/
theorem fillBlock_room (hlen : blockLen ≤ bs) :
    Preserves (Room bs off stop) (fillBlock codecs node blockStart blockLen) := by
  intro w hw
  unfold fillBlock
  rw [exec_bind_of_ok (exec_get w), exec_bind]
  rcases hrun : exec (onVolume (readInodeData codecs node blockStart (w.block.take blockLen))) w
    with ⟨e | r, u⟩
  · obtain ⟨-, rfl⟩ := Prod.mk.inj hrun
    exact ⟨hw.block_length, hw.buf_length⟩
  · obtain ⟨hdata, rfl⟩ := Prod.mk.inj hrun
    have hfilled := readInodeData_length (Prod.ext hdata rfl)
    rw [List.length_take, hw.block_length] at hfilled
    refine ⟨?_, hw.buf_length⟩
    refine (overwrite_length ?_).trans hw.block_length
    rw [hfilled, hw.block_length]
    omega

/-- Surfacing a block leaves the room there is. -/
theorem surface_room :
    Preserves (Room bs off stop) (surface off stop blockStart blockLen) := by
  intro w hw
  have hblock := hw.block_length
  have hbuf := hw.buf_length
  unfold surface
  dsimp only
  rw [exec_ite]
  split_ifs
  · refine ⟨hblock, ?_⟩
    show stop ≤ off + (overwrite w.buf _ _).length
    rw [overwrite_length]
    · exact hbuf
    · rw [List.length_take, List.length_drop]
      omega
  · exact hw

theorem exec_fillBlock {w : Window} (hlen : blockLen ≤ w.block.length) :
    exec (Checked.fillBlock codecs node blockStart blockLen) w =
      exec (fillBlock codecs node blockStart blockLen) w := by
  have hdst : slice w.block 0 blockLen = some (w.block.take blockLen) :=
    slice_eq_some.mpr ⟨by omega, rfl⟩
  unfold Checked.fillBlock fillBlock
  rw [exec_bind, exec_bind, exec_get]
  simp only [hdst, unwrap, readInodeData_eq]
  rw [exec_bind_of_ok (exec_lift (Except.ok _) w)]

theorem exec_verifyBlock_checked {w : Window} (hlen : blockLen ≤ w.block.length) :
    exec (Checked.verifyBlock verifier node blockStart blockLen) w =
      exec (verifyBlock verifier node blockStart blockLen) w := by
  have hdata : slice w.block 0 blockLen = some (w.block.take blockLen) :=
    slice_eq_some.mpr ⟨by omega, rfl⟩
  unfold Checked.verifyBlock verifyBlock
  rw [exec_bind, exec_bind, exec_get]
  simp only [hdata, unwrap]
  rw [exec_bind_of_ok (exec_lift (Except.ok _) w)]

theorem exec_surface {w : Window} (hw : Room bs off stop w) (hlen : blockLen ≤ bs)
    (hend : blockStart + blockLen < 2 ^ 64) :
    exec (Checked.surface off stop blockStart blockLen) w =
      exec (surface off stop blockStart blockLen) w := by
  have hblock := hw.block_length
  have hbuf := hw.buf_length
  have hblockEnd : u64 (blockStart + blockLen) = .ok (blockStart + blockLen) :=
    fits_eq_ok.mpr ⟨hend, rfl⟩
  unfold Checked.surface surface
  rw [hblockEnd, exec_bind_of_ok (exec_lift (Except.ok _) w)]
  dsimp only
  rw [exec_ite, exec_ite]
  split_ifs with hcopy
  · have hsrc : slice w.block (max off blockStart - blockStart)
        (min stop (blockStart + blockLen) - max off blockStart) = some _ :=
      slice_eq_some.mpr ⟨by omega, rfl⟩
    rw [minus_of_le (by omega), exec_bind_of_ok (exec_lift (Except.ok _) w),
      minus_of_le (by omega), exec_bind_of_ok (exec_lift (Except.ok _) w),
      minus_of_le (by omega), exec_bind_of_ok (exec_lift (Except.ok _) w)]
    rw [exec_bind_of_ok (exec_get w), exec_bind_of_ok (exec_get w), hsrc, unwrap,
      exec_bind_of_ok (exec_lift (Except.ok _) w), copyInto_eq (by omega) (slice_length hsrc),
      exec_bind_of_ok (exec_lift (Except.ok _) w)]
  · rfl

/-- Every block starts and ends inside the file, so no index is out of range. -/
theorem exec_readBlocks {vol : Volume} {size produced : ℕ} {w : Window}
    (hw : Room vol.blockSize off stop w) (hstop : stop ≤ size) (hsize : size < 2 ^ 64) :
    exec (Checked.readBlocks codecs verifier node vol off stop size blockStart produced) w =
      exec (readBlocks codecs verifier node vol off stop size blockStart produced) w := by
  fun_induction readBlocks (n := Id) codecs verifier node vol off stop size blockStart produced
    generalizing w with
  | case1 blockStart produced hlt blockLen =>
    rename_i ih
    have hlen : blockLen ≤ vol.blockSize := Nat.min_le_left ..
    rw [Checked.readBlocks, if_pos hlt, minus_of_le (by omega),
      exec_bind_of_ok (exec_lift (Except.ok _) w)]
    refine exec_bind_congr (exec_fillBlock (hlen.trans_eq hw.block_length.symm)) fun _ t ht => ?_
    have ht := (fillBlock_room hlen).of_exec hw ht
    refine exec_bind_congr (exec_verifyBlock_checked (hlen.trans_eq ht.block_length.symm)) fun _ u hu => ?_
    have hu : Room vol.blockSize off stop u := by
      obtain ⟨-, rfl⟩ := Prod.mk.inj hu
      exact ⟨ht.block_length, ht.buf_length⟩
    refine exec_bind_congr (exec_surface hu hlen (by omega)) fun count v hv => ?_
    have hv := surface_room.of_exec hu hv
    refine exec_bind_congr rfl fun _ v' hv' => ?_
    obtain ⟨-, rfl⟩ := Prod.mk.inj hv'
    exact ih count hv
  | case2 blockStart produced hge => rw [Checked.readBlocks, if_neg hge]

/-- A window on a volume, with a scratch block. -/
def Ready (codecs : Codecs ρ) (vol : Volume) (w : Window) : Prop :=
  Holds codecs vol w.fs ∧ w.block.length = vol.blockSize

theorem parseInode_ready (vol : Volume) (nid : NodeId) :
    Preserves (Ready codecs vol) (onVolume (parseInode nid)) :=
  Preserves.zoom (parseInode_holds codecs vol nid) (fun _ hw => hw.1) (fun _ _ hfs hw => ⟨hfs, hw.2⟩)

theorem exec_onVolume_inode (nid : NodeId) (w : Window) :
    exec (onVolume (inode nid)) w = (okOr w.fs.inodes[nid]? .notFound, w) := rfl

/-- In the states of a volume the inode's size is a 64-bit field. -/
theorem exec_readWindow {vol : Volume} {w : Window} (hw : Ready codecs vol w) :
    exec ((Checked.dataPath codecs).readWindow verifier node off) w =
      exec ((dataPath codecs).readWindow verifier node off) w := by
  unfold DataPath.readWindow
  refine exec_bind_congr rfl fun _ t ht => ?_
  have ht := (parseInode_ready vol node).of_exec hw ht
  refine exec_bind_congr rfl fun inode u hu => ?_
  rw [exec_onVolume_inode] at hu
  obtain ⟨hfound, rfl⟩ := Prod.mk.inj hu
  have hsize := (readInode_bounded (ht.1.inodes node inode (okOr_eq_ok.mp hfound))).size_lt
  rw [exec_ite, exec_ite, exec_ite, exec_ite]
  split_ifs
  · rfl
  · rfl
  · rw [exec_bind_of_ok (exec_get t), exec_bind_of_ok (exec_get t)]
    refine exec_bind_congr rfl fun asked v hv => ?_
    obtain ⟨hasked, rfl⟩ := Prod.mk.inj hv
    obtain ⟨-, rfl⟩ := fits_eq_ok.mp hasked
    have hroom : Room t.fs.vol.blockSize off (min (off + t.buf.length) inode.size) t := by
      refine ⟨?_, by omega⟩
      rw [ht.1.vol_eq]
      exact ht.2
    exact exec_readBlocks hroom (Nat.min_le_right ..) hsize

theorem exec_readAt_checked {vol : Volume} {fs : Erofs} (hfs : Holds codecs vol fs)
    (buf : List UInt8) :
    exec ((Checked.dataPath codecs).readAt verifier node off buf) fs =
      exec ((dataPath codecs).readAt verifier node off buf) fs := by
  have hready : Ready codecs vol (.start fs buf) := ⟨hfs, by simp [Window.start, hfs.vol_eq]⟩
  exact congrArg (fun r : Outcome ℕ × Window => (r.1.map fun n => (n, r.2.buf), r.2.fs))
    (exec_readWindow hready)

end Blocks

/-- In the states of a volume, the checks change nothing. -/
theorem checked_alike (vol : Volume) (verifier : Verifier) :
    (Checked.frontend codecs verifier).Alike (Holds codecs vol) (frontend codecs verifier) where
  lookup dir name fs _ := congrArg (exec · fs) (lookup_eq dir name)
  readDir dir fs _ := congrArg (exec · fs) (readDir_eq dir)
  metadata _ _ _ := rfl
  readAt _ _ buf _ hfs := exec_readAt_checked hfs buf
  readLink node fs _ := congrArg (exec · fs) (readLink_eq node)

end Methods

end Lamfold.Erofs
