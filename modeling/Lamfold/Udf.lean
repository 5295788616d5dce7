import Lamfold.Extents
import Lamfold.Intern
import Lamfold.Utf8

/-!
The UDF frontend. A chain of descriptors from sector 256 leads to the partition
and the root directory. An inode is parsed from its File Entry block, which is
its key in the intern table; its data is inline or a list of extents.
-/
namespace Lamfold

open Effects Bytes Utf8

namespace Udf

def sector : ℕ := 2048

def avdpSector : ℕ := 256

def tagAvdp : ℕ := 2

def tagPartition : ℕ := 5

def tagLogicalVolume : ℕ := 6

def tagTerminating : ℕ := 8

def tagFileSet : ℕ := 256

def tagFid : ℕ := 257

def tagFileEntry : ℕ := 261

def tagExtendedFileEntry : ℕ := 266

def ftDirectory : UInt8 := 4

def ftRegular : UInt8 := 5

def ftSymlink : UInt8 := 12

def maxVdsSectors : ℕ := 64

/-- An extent without an address is not recorded and reads as zeros. -/
structure Extent where
  lba : Option ℕ
  len : ℕ
  deriving DecidableEq, Repr

inductive FileData
  | inline (bytes : List UInt8)
  | extents (extents : List Extent)
  deriving DecidableEq, Repr

structure UdfInode where
  kind : FileKind
  size : ℕ
  data : FileData
  deriving DecidableEq, Repr

/-- What the descriptors say of a volume. -/
structure Volume where
  src : Source
  blockSize : ℕ
  partitionStart : ℕ
  deriving DecidableEq

def leU16 := leAt 2 "udf: truncated u16"

def leU32 := leAt 4 "udf: truncated u32"

def leU64 := leAt 8 "udf: truncated u64"

def fileTypeKind (fileType : UInt8) : FileKind :=
  if fileType = ftDirectory then .directory
  else if fileType = ftRegular then .regular
  else if fileType = ftSymlink then .symlink
  else .other

/-- One allocation descriptor; `none` is an empty one. Its block number counts
from the start of the partition. -/
def parseExtent (partitionStart : ℕ) (c : List UInt8) : Outcome (Option Extent) := do
  let raw := leNat (c.take 4)
  let len := raw &&& 0x3FFFFFFF
  let etype := raw >>> 30
  if len = 0 then return none
  else if etype = 3 then
    fail (.unsupported "udf: allocation-extent continuation not supported")
  else do
    let block := leNat ((c.drop 4).take 4)
    -- `then_some` has its argument evaluated, also for an unrecorded extent
    let lba ← u32 (partitionStart + block)
    return some ⟨if etype = 0 then some lba else none, len⟩

def parseExtents (partitionStart : ℕ) (buf : List UInt8) (adOff lAd stride : ℕ) :
    Outcome FileData := do
  let ads ← okOr (slice buf adOff lAd) (.corrupt "udf: allocation descriptors out of bounds")
  let ex ← (chunksExact stride ads).mapM (parseExtent partitionStart)
  return .extents (ex.filterMap id)

/-- Where a File Entry has the lengths of its extended attributes and allocation
descriptors, and where the attributes start. -/
def entryLayout (tag : ℕ) : Outcome (ℕ × ℕ × ℕ) :=
  if tag = tagFileEntry then .ok (168, 172, 176)
  else if tag = tagExtendedFileEntry then .ok (208, 212, 216)
  else fail (.corrupt "udf: expected a File Entry")

def inlineData (buf : List UInt8) (adOff infoLen : ℕ) : Outcome FileData := do
  let n ← checkedFullReadLen infoLen
  let stop ← okOr (checkedU64 (adOff + n)) (.corrupt "udf: inline overflow")
  let bytes ← okOr (sliceRange buf adOff stop) (.corrupt "udf: inline data out of bounds")
  return .inline bytes

/-- The data as the allocation descriptor type says: inline, or a short_ad or
long_ad list. -/
def fileData (partitionStart : ℕ) (buf : List UInt8) (adType adOff lAd infoLen : ℕ) :
    Outcome FileData :=
  if adType = 3 then inlineData buf adOff infoLen
  else if adType = 0 then parseExtents partitionStart buf adOff lAd 8
  else if adType = 1 then parseExtents partitionStart buf adOff lAd 16
  else fail (.unsupported "udf: extended_ad allocation descriptors not supported")

def parseFe (partitionStart : ℕ) (buf : List UInt8) : Outcome UdfInode := do
  let tag ← leU16 buf 0
  let (lEaAt, lAdAt, eaStart) ← entryLayout tag
  let fileType ← okOr buf[27]? (.corrupt "udf: short ICBTag")
  let icbFlags ← leU16 buf 34
  let infoLen ← leU64 buf 56
  let lEa ← leU32 buf lEaAt
  let lAd ← leU32 buf lAdAt
  let adOff ← okOr (checkedU64 (eaStart + lEa)) (.corrupt "udf: L_EA overflow")
  let data ← fileData partitionStart buf (icbFlags &&& 0x7) adOff lAd infoLen
  return ⟨fileTypeKind fileType, infoLen, data⟩

/-- A name starts with a compression id: 8-bit or 16-bit characters. -/
def decodeUdfName : List UInt8 → Outcome Str
  | [] => .ok []
  | 8 :: rest => .ok (rest.flatMap fun b => ofScalar b.toNat)
  | 16 :: rest => do
    let chars ← okOr (decodeUtf16 ((chunksExact 2 rest).map beNat))
      (.invalidPath "udf: bad UTF-16 in name")
    return chars.flatMap ofScalar
  | _ => fail (.invalidPath "udf: unknown name compression id")

/-- The name and File Entry block of an entry, unless it is the parent's or a
deleted one. -/
def fidEntry (partitionStart : ℕ) (fc : UInt8) (fi : List UInt8) (icbLb : ℕ) :
    Outcome (List (Str × ℕ)) :=
  if fc &&& 0x08 = 0 ∧ fc &&& 0x04 = 0 then do
    let name ← decodeUdfName fi
    let lba ← u32 (partitionStart + icbLb)
    return [(name, lba)]
  else .ok []

/-- Name and File Entry block of each entry from index `p` on. -/
def parseFidsFrom (partitionStart : ℕ) (data : List UInt8) (p : ℕ) : Outcome (List (Str × ℕ)) :=
  if p + 38 ≤ data.length then do
    let tag ← leU16 data p
    if tag ≠ tagFid then return []
    else do
      let fc ← unwrap data[p + 18]?
      let lFi ← unwrap data[p + 19]?
      let icbLb ← leU32 data (p + 24)
      let lIu ← leU16 data (p + 36)
      let fi ← okOr (slice data (p + 38 + lIu) lFi.toNat) (.corrupt "udf: FID name out of bounds")
      let entry ← fidEntry partitionStart fc fi icbLb
      -- a FID is padded to a 4-byte boundary
      let rest ← parseFidsFrom partitionStart data (p + (38 + lIu + lFi.toNat + 3) / 4 * 4)
      return entry ++ rest
  else .ok []
  termination_by data.length - p

def parseFids (data : List UInt8) (partitionStart : ℕ) : Outcome (List (Str × ℕ)) :=
  parseFidsFrom partitionStart data 0

/-- What was found in the Main Volume Descriptor Sequence: the start of the
partition, the logical block size and the block of the File Set Descriptor. -/
structure Vds where
  partitionStart : Option ℕ
  lvd : Option (ℕ × ℕ)

section Reading

variable {m : Type → Type} [Monad m] [MonadLiftT Outcome m] [Reads m]

/-- Block `lba` of a source with blocks of `blockSize` bytes. -/
def readBlock (src : Source) (blockSize lba : ℕ) : m (List UInt8) := do
  let off ← u64 (lba * blockSize)
  let stop ← u64 (off + blockSize)
  if stop > src.len then fail (.corrupt "udf: block past end of source")
  else src.readAt off blockSize

/-- The inode whose File Entry is block `lba`. -/
def readFe (vol : Volume) (lba : ℕ) : m UdfInode := do
  let buf ← readBlock vol.src vol.blockSize lba
  parseFe vol.partitionStart buf

/-- The `n` bytes of an extent from byte `intra` on. -/
def readExtent (vol : Volume) (e : Extent) (intra n : ℕ) : m (List UInt8) :=
  match e.lba with
  | some lba => do
    let disk ← u64 (lba * vol.blockSize + intra)
    vol.src.readAt disk n
  | none => pure (List.replicate n 0)

/-- The extent loop of `read_all`. -/
def readAllExtents (vol : Volume) (total : ℕ) : List Extent → List UInt8 → m (List UInt8)
  | [], out => pure out
  | e :: rest, out =>
    if out.length ≥ total then pure out
    else do
      let chunk ← readExtent vol e 0 (min e.len (total - out.length))
      readAllExtents vol total rest (out ++ chunk)

/-- A whole directory's bytes. -/
def readAll (vol : Volume) (inode : UdfInode) : m (List UInt8) :=
  match inode.data with
  | .inline b => pure b
  | .extents ex => do
    let total ← checkedFullReadLen inode.size
    let out ← readAllExtents vol total ex []
    return out.take total

/-- Up to `want` bytes from `off` on. -/
def readData (vol : Volume) (data : FileData) (off want : ℕ) : m (List UInt8) :=
  match data with
  | .inline b => unwrap (slice b off (min want (b.length - off)))
  | .extents ex => readExtents Extent.len (readExtent vol) off want ex 0 []

def probe (src : Source) : m Bool :=
  if src.len < avdpSector * sector + 4 then pure false
  else do
    let t ← src.readAt (avdpSector * sector) 4
    return leNat (t.take 2) = tagAvdp

/-- The `count` descriptors from number `i` on of the sequence at `mvdsLoc`. -/
def walkVds (src : Source) (mvdsLoc : ℕ) : ℕ → ℕ → Vds → m Vds
  | 0, _, found => pure found
  | count + 1, i, found => do
    let lba ← u32 (mvdsLoc + i)
    let b ← readBlock src sector lba
    let tag ← leU16 b 0
    if tag = tagPartition then do
      let start ← leU32 b 188
      walkVds src mvdsLoc count (i + 1) { found with partitionStart := some start }
    else if tag = tagLogicalVolume then do
      let lbs ← leU32 b 212
      let fsdLb ← leU32 b 252
      walkVds src mvdsLoc count (i + 1) { found with lvd := some (lbs, fsdLb) }
    else if tag = tagTerminating then return found
    else walkVds src mvdsLoc count (i + 1) found

/-- The volume, and the block its File Set Descriptor has in the partition. -/
def openVolume (src : Source) : m (Volume × ℕ) := do
  let avdp ← readBlock src sector avdpSector
  let tag ← leU16 avdp 0
  if tag ≠ tagAvdp then fail (.corrupt "udf: no Anchor VD Pointer at sector 256")
  else do
    let mvdsLen ← leU32 avdp 16
    let mvdsLoc ← leU32 avdp 20
    let found ← walkVds src mvdsLoc (min (mvdsLen / sector) maxVdsSectors) 0 ⟨none, none⟩
    let partitionStart ← okOr found.partitionStart (.corrupt "udf: no Partition Descriptor")
    let (lbs, fsdLb) ← okOr found.lvd (.corrupt "udf: no Logical Volume Descriptor")
    return (⟨src, if lbs ≠ 0 then lbs else sector, partitionStart⟩, fsdLb)

/-- The block of the root directory's File Entry. -/
def rootFe (vol : Volume) (fsdLb : ℕ) : m ℕ := do
  let fsdLba ← u32 (vol.partitionStart + fsdLb)
  let fsd ← readBlock vol.src vol.blockSize fsdLba
  let tag ← leU16 fsd 0
  if tag ≠ tagFileSet then fail (.corrupt "udf: no File Set Descriptor")
  else do
    let rootIcbLb ← leU32 fsd 404
    u32 (vol.partitionStart + rootIcbLb)

end Reading

end Udf

/-- A mounted UDF volume; the key of an inode is the block of its File Entry. -/
structure Udf where
  vol : Udf.Volume
  table : InternTable ℕ Udf.UdfInode

namespace Udf

section Methods

variable {m : Type → Type} [Monad m] [MonadLiftT Outcome m] [Reads m]

/-- `FoldFrontend::open`. -/
def mount (src : Source) : m Udf := do
  let (vol, fsdLb) ← openVolume src
  let rootFeLba ← rootFe vol fsdLb
  let root ← readFe vol rootFeLba
  return ⟨vol, (InternTable.empty.intern rootFeLba root).2⟩

variable {n : Type → Type} [Monad n]

def inode (node : NodeId) : MethodIn n Udf UdfInode := do
  let u ← get
  u.table.inode node

def onTable {α : Type} (x : MethodIn n (InternTable ℕ UdfInode) α) : MethodIn n Udf α :=
  zoom Udf.table (fun t u => { u with table := t }) x

def metadata (node : NodeId) : MethodIn n Udf Metadata := do
  let inode ← inode node
  return ⟨inode.kind, inode.size, 0⟩

/-- The default of the interface: no symlinks. -/
def readLink (_node : NodeId) : MethodIn n Udf (Option (List UInt8)) := pure none

variable [∀ σ, MonadLiftT m (MethodIn n σ)]

def readDir (dir : NodeId) : MethodIn n Udf (List DirEntry) := do
  let inode ← inode dir
  if inode.kind ≠ .directory then throw (.err .notDirectory)
  else do
    let u ← get
    let data ← (readAll u.vol inode : m _)
    let fids ← parseFids data u.vol.partitionStart
    let parse : ℕ → m UdfInode := readFe u.vol
    onTable (InternTable.internAll id parse UdfInode.kind fids)

def lookup (dir : NodeId) (name : Str) : MethodIn n Udf (Option NodeId) := do
  let entries ← readDir (m := m) dir
  return entryNamed entries name

def readAt (node : NodeId) (off : ℕ) (buf : List UInt8) : MethodIn n Udf (ℕ × List UInt8) := do
  let inode ← inode node
  if inode.kind = .directory then throw (.err .isDirectory)
  else if off ≥ inode.size then return (0, buf)
  else do
    let u ← get
    let data ← (readData u.vol inode.data off (min buf.length (inode.size - off)) : m _)
    return (data.length, overwrite buf 0 data)

def frontendIn : FoldFrontendIn n Udf where
  root _ := 0
  lookup := lookup (m := m)
  readDir := readDir (m := m)
  metadata := metadata
  readAt := readAt (m := m)
  readLink := readLink

end Methods

def frontend : FoldFrontend Udf := frontendIn (m := Outcome)

end Udf

end Lamfold
