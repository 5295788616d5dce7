import Lamfold.ErofsDecode
import Lamfold.Utf8

/-!
An EROFS volume as its superblock describes it, and what its inodes, data and
directory blocks read as. All of this depends on the volume only, not on what
was read before.
-/
namespace Lamfold.Erofs

open Effects Bytes Utf8

def superOffset : ℕ := 1024

def magic : ℕ := 0xE0F5E1E2

/-- What `open` keeps of the superblock, with the source. -/
structure Volume where
  src : Source
  blkszbits : ℕ
  blkszbits_range : 9 ≤ blkszbits ∧ blkszbits ≤ 16
  lz4ZeroPadding : Bool
  metaOff : ℕ
  rootNid : ℕ
  lzmaDictSize : Option ℕ
  comprCfgsOff : ℕ
  deriving DecidableEq

def Volume.blockSize (vol : Volume) : ℕ := 2 ^ vol.blkszbits

theorem Volume.blockSize_pos (vol : Volume) : 0 < vol.blockSize := Nat.two_pow_pos _

structure Inode where
  kind : FileKind
  size : ℕ
  mode : ℕ
  layout : ℕ
  rawBlkaddr : ℕ
  inlineOff : ℕ
  deriving DecidableEq, Repr

def leU16 := leAt 2 "erofs: truncated u16"

def leU32 := leAt 4 "erofs: truncated u32"

def leU64 := leAt 8 "erofs: truncated u64"

def inodeOffset (vol : Volume) (nid : NodeId) : Outcome ℕ :=
  okOr ((checkedU64 (nid * 32)).bind fun x => checkedU64 (vol.metaOff + x))
    (.corrupt "erofs: inode offset overflow")

section Reading

variable {m : Type → Type} [Monad m] [MonadLiftT Outcome m] [Reads m]

/-- The bytes of the on-disk inode: 32, or 64 in its extended form. -/
def inodeBytes (vol : Volume) (off : ℕ) : m (List UInt8) := do
  let compact ← vol.src.readAt off 32
  let format ← leU16 compact 0
  if format &&& 1 ≠ 0 then do
    let off ← u64 (off + 32)
    let extended ← vol.src.readAt off 32
    return compact ++ extended
  else return compact

/-- The inode `parse_inode` puts in its cache. -/
def readInode (vol : Volume) (nid : NodeId) : m Inode := do
  let off ← inodeOffset vol nid
  let hdr ← inodeBytes vol off
  let format ← leU16 hdr 0
  let extended := format &&& 1 ≠ 0
  let inodeSize := if extended then 64 else 32
  let xattrIcount ← leU16 hdr 2
  let xattrSize := if xattrIcount = 0 then 0 else 12 + (xattrIcount - 1) * 4
  let mode ← leU16 hdr 4
  let size ← if extended then leU64 hdr 8 else leU32 hdr 8
  let rawBlkaddr ← leU32 hdr 16
  let inlineOff ← u64 (off + inodeSize + xattrSize)
  return ⟨modeKind mode, size, mode, (format >>> 1) &&& 7, rawBlkaddr, inlineOff⟩

def flatPlain : ℕ := 0

def flatInline : ℕ := 2

def chunkBased : ℕ := 4

def compressedFull : ℕ := 1

def compressedCompact : ℕ := 3

/-- Bytes `p..stop` of a FLAT_INLINE inode: whole blocks from `base` on, the rest
right after the inode. -/
def readInline (vol : Volume) (inode : Inode) (fullBytes base stop p : ℕ) :
    m (List UInt8) :=
  if p < stop then
    if p < fullBytes then do
      let segEnd := min stop fullBytes
      let disk ← u64 (base + p)
      let seg ← vol.src.readAt disk (segEnd - p)
      let rest ← readInline vol inode fullBytes base stop segEnd
      return seg ++ rest
    else do
      let disk ← u64 (inode.inlineOff + (p - fullBytes))
      vol.src.readAt disk (stop - p)
  else pure []
  termination_by stop - p

def chunkBlkbitsMask : ℕ := 0x001f

/-- 8-byte chunk indexes rather than 4-byte block addresses. -/
def chunkIndexes : ℕ := 0x0020

def chunk48bit : ℕ := 0x0040

def chunkFormatAll : ℕ := 0x007f

/-- A chunk at this block address is a hole. -/
def nullBlkaddr : ℕ := 2 ^ 32 - 1

/-- Bytes of one chunk, `n` of them from `within` on. -/
def readChunk (vol : Volume) (table idx within n : ℕ) : m (List UInt8) := do
  let entry ← u64 (table + idx * 4)
  let e ← vol.src.readAt entry 4
  let blkaddr := leNat e
  if blkaddr = nullBlkaddr then return List.replicate n 0
  else do
    let disk ← u64 (blkaddr * vol.blockSize + within)
    vol.src.readAt disk n

/-- Bytes `p..stop` of an inode whose chunks are `2 ^ chunkbits` bytes. -/
def readChunks (vol : Volume) (chunkbits table stop p : ℕ) : m (List UInt8) :=
  if p < stop then do
    let idx := p / 2 ^ chunkbits
    let within := p % 2 ^ chunkbits
    let _ ← u64 ((idx + 1) * 2 ^ chunkbits)
    let segEnd := min stop ((p / 2 ^ chunkbits + 1) * 2 ^ chunkbits)
    let seg ← readChunk vol table idx within (segEnd - p)
    let rest ← readChunks vol chunkbits table stop segEnd
    return seg ++ rest
  else pure []
  termination_by stop - p
  decreasing_by
    have hlt : p < (p / 2 ^ chunkbits + 1) * 2 ^ chunkbits := by
      rw [Nat.mul_comm]
      exact Nat.lt_mul_div_succ p (Nat.two_pow_pos chunkbits)
    omega

/-- Bytes `off..stop` of a chunk-based inode, whose `i_u` is the chunk format. -/
def readChunked (vol : Volume) (inode : Inode) (off stop : ℕ) : m (List UInt8) := do
  let format := inode.rawBlkaddr % 2 ^ 16
  let chunkbits := vol.blkszbits + (format &&& chunkBlkbitsMask)
  if format &&& (0xffff - chunkFormatAll) ≠ 0 then
    fail (.corrupt "erofs: unknown chunk format bits")
  else if format &&& chunk48bit ≠ 0 then
    fail (.unsupported "erofs: 48-bit chunk indexes not supported")
  else if chunkbits > 40 then fail (.corrupt "erofs: implausible chunk size")
  else if format &&& chunkIndexes ≠ 0 then
    fail (.unsupported "erofs: chunk indexes not supported")
  else do
    let aligned ← u64 (inode.inlineOff + 3)
    readChunks vol chunkbits (aligned / 4 * 4) stop off

/-- Bytes `off..stop` of an inode that is not compressed. -/
def readFlat (vol : Volume) (inode : Inode) (off stop : ℕ) : m (List UInt8) :=
  if inode.layout = flatPlain then do
    let base ← u64 (inode.rawBlkaddr * vol.blockSize)
    let disk ← u64 (base + off)
    vol.src.readAt disk (stop - off)
  else if inode.layout = flatInline then do
    let fullBytes := inode.size / vol.blockSize * vol.blockSize
    let base ← u64 (inode.rawBlkaddr * vol.blockSize)
    readInline vol inode fullBytes base stop off
  else if inode.layout = chunkBased then readChunked vol inode off stop
  else fail (.unsupported "erofs: unknown datalayout")

/-- The fields of the map header that are read. -/
structure MapHeader where
  advise : ℕ
  algorithmtype : ℕ
  clusterbits : ℕ
  deriving DecidableEq, Repr

namespace MapHeader

def head1Algo (hdr : MapHeader) : ℕ := hdr.algorithmtype &&& 0x0f

def head2Algo (hdr : MapHeader) : ℕ := (hdr.algorithmtype >>> 4) &&& 0x0f

/-- The algorithm of a pcluster of type `ty`. -/
def algo (hdr : MapHeader) (ty : LcType) : ℕ :=
  if ty = .head2 then hdr.head2Algo else hdr.head1Algo

end MapHeader

def adviseCompacted2b : ℕ := 0x0001

def adviseInlinePcluster : ℕ := 0x0008

def adviseInterlacedPcluster : ℕ := 0x0010

def adviseFragment : ℕ := 0x0020

def clusterbitsWholeFileFragment : ℕ := 0x80

/-- Where the map header starts: after the inode, 8-byte aligned. -/
def mapHeaderOff (inode : Inode) : Outcome ℕ := do
  let e ← u64 (inode.inlineOff + 7)
  return e / 8 * 8

def readMapHeader (vol : Volume) (mh : ℕ) : m MapHeader := do
  let hdr ← vol.src.readAt mh 8
  return ⟨leNat ((hdr.drop 4).take 2), (hdr.getD 6 0).toNat, (hdr.getD 7 0).toNat⟩

/-- The pclusters of an inode, from the index its layout has. -/
def buildHeads (vol : Volume) (inode : Inode) (hdr : MapHeader) (mh : ℕ) :
    m (List Head) := do
  let lcbits := vol.blkszbits + (hdr.clusterbits &&& 0x0f)
  if hdr.clusterbits &&& clusterbitsWholeFileFragment ≠ 0 ∨
      hdr.advise &&& (adviseInlinePcluster ||| adviseInterlacedPcluster ||| adviseFragment) ≠ 0 then
    fail (.unsupported "erofs: ztailpacking / fragment / interlaced pclusters not supported")
  else if lcbits > 30 then fail (.corrupt "erofs: implausible lclusterbits")
  else do
    let lcsize := 2 ^ lcbits
    let nLc := divCeil inode.size lcsize
    if inode.layout = compressedFull then buildHeadsFull vol.src mh lcsize nLc
    else if inode.layout = compressedCompact then
      if lcbits > compactLobits then
        fail (.unsupported "erofs: compact index with lclusterbits above 12")
      else if hdr.advise &&& adviseCompacted2b = 0 then
        fail (.unsupported "erofs: all-4B compact index (COMPACTED_2B clear) not supported")
      else do
        let ebase ← u64 (mh + 8)
        buildHeadsCompact vol.src ebase lcsize nLc hdr.advise
    else fail (.corrupt "erofs: inode is not compressed")

/-- The map header and the pclusters of a compressed inode. The size is capped
first, since every other size follows from it. -/
def readHeads (vol : Volume) (inode : Inode) : m (MapHeader × List Head) := do
  let mh ← mapHeaderOff inode
  let _ ← checkedFullReadLen inode.size
  let hdr ← readMapHeader vol mh
  let heads ← buildHeads vol inode hdr mh
  return (hdr, heads)

/-- The blocks of a pcluster, clamped to the device. -/
def readSpan (vol : Volume) (blkaddr cblkcnt : ℕ) : m (List UInt8) := do
  let phys ← u64 (blkaddr * vol.blockSize)
  let want ← u64 (cblkcnt * vol.blockSize)
  let avail := min want (vol.src.len - phys)
  if avail = 0 then fail (.corrupt "erofs: pcluster span out of range")
  else vol.src.readAt phys avail

/-- Where the extent before `heads` ends. -/
def nextStart (iSize : ℕ) (heads : List Head) : ℕ := (heads.head?.map Head.start).getD iSize

section Decode

variable {ρ : Type} (codecs : Codecs ρ) (vol : Volume)

/-- What the blocks of `h` decode to, `outlen` bytes of it. -/
def decodeOwn (hdr : MapHeader) (h : Head) (outlen : ℕ) (out : List UInt8) :
    m (List UInt8) := do
  let span ← readSpan vol h.blkaddr h.cblkcnt
  decodePcluster codecs h.ty (hdr.algo h.ty) span outlen out vol.lzmaDictSize vol.lz4ZeroPadding

/-- The decode loop: append what each pcluster decodes to. A zero-length extent
ends the file and has no blocks. -/
def decodeHeads (hdr : MapHeader) (iSize : ℕ) (out : List UInt8) :
    List Head → m (List UInt8)
  | [] => pure out
  | h :: rest =>
    if nextStart iSize rest < h.start then
      fail (.corrupt "erofs: non-monotonic pcluster starts")
    else if nextStart iSize rest - h.start = 0 then decodeHeads hdr iSize out rest
    else do
      let seg ← decodeOwn codecs vol hdr h (nextStart iSize rest - h.start) out
      decodeHeads hdr iSize (out ++ seg) rest

/-- The content `materialize_compressed` puts in its cache. -/
def decodeInode (inode : Inode) : m (List UInt8) := do
  let (hdr, heads) ← readHeads vol inode
  decodeHeads codecs vol hdr inode.size [] heads

end Decode

end Reading

def fileTypeKind (fileType : UInt8) : FileKind :=
  if fileType = 1 then .regular
  else if fileType = 2 then .directory
  else if fileType = 7 then .symlink
  else .other

/-- Dirent `i` of `count`; `none` is one that is left out. Names are not
NUL-terminated, but the last one of a block may be zero-padded. -/
def dirent (block : List UInt8) (count i : ℕ) : Outcome (Option DirEntry) := do
  let nid ← leU64 block (i * 12)
  let nameoff ← leU16 block (i * 12 + 8)
  let fileType ← okOr block[i * 12 + 10]? (.corrupt "erofs: dirent")
  let nameEnd ← if i + 1 < count then leU16 block ((i + 1) * 12 + 8) else .ok block.length
  let raw ← okOr (sliceRange block nameoff nameEnd) (.corrupt "erofs: dirent name OOB")
  let name := raw.takeWhile (· ≠ 0)
  if name = [] ∨ name = [0x2E] ∨ name = [0x2E, 0x2E] then return none
  else return some ⟨fromUtf8Lossy name, nid, fileTypeKind fileType⟩

def parseDirBlock (block : List UInt8) : Outcome (List DirEntry) := do
  if block.length < 12 then return []
  else do
    let firstNameoff ← leU16 block 8
    let count := firstNameoff / 12
    let entries ← (List.range count).mapM (dirent block count)
    return entries.filterMap id

/-- The entries of all blocks of a directory's data. -/
def parseDirData (vol : Volume) (data : List UInt8) : Outcome (List DirEntry) :=
  if data = [] then .ok []
  else do
    let entries ← parseDirBlock (data.take vol.blockSize)
    let rest ← parseDirData vol (data.drop vol.blockSize)
    return entries ++ rest
  termination_by data.length
  decreasing_by
    have hpos := List.length_pos_iff.mpr ‹_›
    have hbs := vol.blockSize_pos
    rw [List.length_drop]
    omega

def incompatLz40padding : ℕ := 0x0001

def incompat48bit : ℕ := 0x0080

def incompatMetabox : ℕ := 0x0100

/-- Bits 0 to 8. -/
def incompatKnown : ℕ := 0x01ff

/-- Refuse what this reader cannot read correctly anywhere in the volume. -/
def refuseUnsupportedFeatures (sb : List UInt8) (incompat : ℕ) : Outcome Unit := do
  if incompat &&& (0xffffffff - incompatKnown) ≠ 0 then
    fail (.unsupported "erofs: unknown incompatible feature")
  else if incompat &&& incompatMetabox ≠ 0 then
    fail (.unsupported "erofs: metabox not supported")
  else if incompat &&& incompat48bit ≠ 0 then
    fail (.unsupported "erofs: 48-bit layout not supported")
  else do
    let extraDevices ← leU16 sb 86
    if extraDevices ≠ 0 then fail (.unsupported "erofs: extra devices not supported")
    else do
      let packedNid ← leU64 sb 96
      if packedNid ≠ 0 then fail (.unsupported "erofs: fragments (packed inode) not supported")
      else return ()

def comprAlgsOff : ℕ := 1024 + 84

def comprAlgLzmaBit : ℕ := 0x0002

section Opening

variable {m : Type → Type} [Monad m] [MonadLiftT Outcome m] [Reads m]

/-- The window in the LZMA config, which follows the configs of the algorithms
before it. A format other than 0 is left alone. -/
def lzmaCfg (src : Source) (algs cur : ℕ) : List ℕ → m (Option ℕ)
  | [] => pure none
  | alg :: rest =>
    if algs &&& (1 <<< alg) = 0 then lzmaCfg src algs cur rest
    else do
      match ← Reads.attempt (src.readAt cur 2 : m _) with
      | .error _ => return none
      | .ok sz =>
        if alg = algoLzma then
          match ← Reads.attempt (src.readAt (cur + 2) 6 : m _) with
          | .error _ => return none
          | .ok pay => return if leNat (pay.drop 4) = 0 then some (leNat (pay.take 4)) else none
        else lzmaCfg src algs (cur + (2 + leNat sz)) rest

def parseLzmaCfg (src : Source) (comprCfgsOff : ℕ) : m (Option ℕ) := do
  match ← Reads.attempt (src.readAt comprAlgsOff 2 : m _) with
  | .error _ => return none
  | .ok algs =>
    if leNat algs &&& comprAlgLzmaBit = 0 then return none
    else lzmaCfg src (leNat algs) comprCfgsOff (List.range 16)

def probe (src : Source) : m Bool :=
  if src.len < superOffset + 4 then pure false
  else do
    let m ← src.readAt superOffset 4
    return leNat m = magic

def openVolume (src : Source) : m Volume :=
  if src.len < superOffset + 128 then fail (.corrupt "erofs: source shorter than superblock")
  else do
    let sb ← src.readAt superOffset 128
    let found ← leU32 sb 0
    if found ≠ magic then fail (.corrupt "erofs: bad magic")
    else do
      let blkszbits := (sb.getD 12 0).toNat
      if hbits : 9 ≤ blkszbits ∧ blkszbits ≤ 16 then do
        let incompat ← leU32 sb 80
        refuseUnsupportedFeatures sb incompat
        let rootNid ← leU16 sb 14
        let metaBlkaddr ← leU32 sb 40
        let metaOff ← u64 (metaBlkaddr * 2 ^ blkszbits)
        let comprCfgsOff := superOffset + 128 + (sb.getD 13 0).toNat * 16
        let lzmaDictSize ← parseLzmaCfg src comprCfgsOff
        return {
          src := src
          blkszbits := blkszbits
          blkszbits_range := hbits
          lz4ZeroPadding := incompat &&& incompatLz40padding ≠ 0
          metaOff := metaOff
          rootNid := rootNid
          lzmaDictSize := lzmaDictSize
          comprCfgsOff := comprCfgsOff }
      else fail (.corrupt "erofs: implausible blkszbits")

end Opening

/-- What cannot be read of the config is no error. -/
theorem lzmaCfg_ok (src : Source) (algs cur : ℕ) (rest : List ℕ) :
    ∃ size, lzmaCfg src algs cur rest = .ok size := by
  induction rest generalizing cur with
  | nil => exact ⟨none, rfl⟩
  | cons alg rest ih =>
    rw [lzmaCfg]
    by_cases hbit : algs &&& (1 <<< alg) = 0
    · rw [if_pos hbit]
      exact ih cur
    rw [if_neg hbit, attempt_bind]
    cases src.readAt cur 2 with
    | error fault => exact ⟨none, rfl⟩
    | ok sz =>
      dsimp only
      by_cases halg : alg = algoLzma
      · rw [if_pos halg, attempt_bind]
        cases src.readAt (cur + 2) 6 with
        | error fault => exact ⟨none, rfl⟩
        | ok pay => exact ⟨_, rfl⟩
      · rw [if_neg halg]
        exact ih _

theorem parseLzmaCfg_ok (src : Source) (comprCfgsOff : ℕ) :
    ∃ size, parseLzmaCfg src comprCfgsOff = .ok size := by
  unfold parseLzmaCfg
  rw [attempt_bind]
  cases src.readAt comprAlgsOff 2 with
  | error fault => exact ⟨none, rfl⟩
  | ok algs =>
    dsimp only
    by_cases hbit : leNat algs &&& comprAlgLzmaBit = 0
    · rw [if_pos hbit]
      exact ⟨none, rfl⟩
    · rw [if_neg hbit]
      exact lzmaCfg_ok ..

end Lamfold.Erofs
