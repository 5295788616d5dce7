import Lamfold.Codec
import Lamfold.ElTorito
import Lamfold.Extents
import Lamfold.Intern
import Lamfold.RockRidge

/-!
The ISO 9660 frontend. Volume descriptors from sector 16 on lead to the root; a
directory is an extent of records, whose names and kinds Rock Ridge or Joliet
refine. The key of a node is the place of its record: the block of its directory,
and the offset in it.
-/
namespace Lamfold

open Effects Bytes Utf8 RockRidge

namespace Iso9660

/-- The descriptors start at sector 16. -/
def vdRegionOffset : ℕ := 16 * 2048

def vdSize : ℕ := 2048

def vdTypeBootRecord : UInt8 := 0

def vdTypePrimary : UInt8 := 1

def vdTypeSupplementary : UInt8 := 2

def vdTypeTerminator : UInt8 := 255

/-- `CD001`. -/
def standardId : List UInt8 := [0x43, 0x44, 0x30, 0x30, 0x31]

/-- `%/@`, `%/C` and `%/E`, the Joliet escape sequences. -/
def jolietEscapes : List (List UInt8) := [[0x25, 0x2F, 0x40], [0x25, 0x2F, 0x43], [0x25, 0x2F, 0x45]]

def jolietEscapeOffset : ℕ := 88

/-- `EL TORITO SPECIFICATION`. -/
def elToritoId : List UInt8 :=
  [0x45, 0x4C, 0x20, 0x54, 0x4F, 0x52, 0x49, 0x54, 0x4F, 0x20, 0x53, 0x50, 0x45, 0x43, 0x49, 0x46,
    0x49, 0x43, 0x41, 0x54, 0x49, 0x4F, 0x4E]

def etCatalogPtrOffset : ℕ := 71

def zisofsMagic : List UInt8 := [0x37, 0xE4, 0x53, 0x96, 0xC9, 0xDB, 0xD6, 0x07]

def maxVdScan : ℕ := 64

/-- Most continuation areas of one record. -/
def maxContinuations : ℕ := 16

/-- The key of the root, which no record names. -/
def rootKey : ℕ × ℕ := (2 ^ 32 - 1, 2 ^ 32 - 1)

namespace Dr

def extentLbaLe : ℕ := 2

def dataLenLe : ℕ := 10

def fileFlags : ℕ := 25

def lenFi : ℕ := 32

def fileId : ℕ := 33

def flagDirectory : UInt8 := 0x02

/-- Another record of the same file follows. -/
def flagMultiExtent : UInt8 := 0x80

end Dr

/-- Most extents of one file. -/
def maxExtents : ℕ := 4096

structure Inode where
  key : ℕ × ℕ
  lba : ℕ
  size : ℕ
  extents : List (ℕ × ℕ)
  kind : FileKind
  linkTarget : Option (List UInt8)
  zisofs : Option Zisofs
  deriving DecidableEq, Repr

/-- What the volume descriptors say, with the source. -/
structure Volume where
  src : Source
  blockSize : ℕ
  blockSize_pos : 0 < blockSize
  rockRidge : Bool
  suspSkip : ℕ
  joliet : Bool
  elToritoCatalogLba : Option ℕ
  deriving DecidableEq

def leU16 := leAt 2 "iso: truncated u16 field"

def leU32 := leAt 4 "iso: truncated u32 field"

section Reading

variable {m : Type → Type} [Monad m] [MonadLiftT Outcome m] [Reads m]

/-- The whole extent of a directory. -/
def readDirExtent (src : Source) (blockSize : ℕ) (inode : Inode) : m (List UInt8) := do
  let len ← checkedFullReadLen inode.size
  let off ← u64 (inode.lba * blockSize)
  src.readAt off len

/-- The name of a file without its version, and without a dot that nothing follows. -/
def baseName (raw : Str) : Str :=
  let base := raw.takeWhile (· ≠ 0x3B)
  if base.getLast? = some 0x2E then base.dropLast else base

def decodeName (fi : List UInt8) (isDir : Bool) : Outcome Str := do
  let raw ← okOr (fromUtf8 fi) (.invalidPath "iso: non-utf8 file id")
  return if isDir then raw else baseName raw

def decodeNameJoliet (fi : List UInt8) (isDir : Bool) : Outcome Str := do
  let chars ← okOr (decodeUtf16 ((chunksExact 2 fi).map beNat))
    (.invalidPath "iso: bad UTF-16 in joliet name")
  let raw := chars.flatMap ofScalar
  return if isDir then raw else baseName raw

def fileName (vol : Volume) (fi : List UInt8) (isDir : Bool) : Outcome Str :=
  if vol.joliet then decodeNameJoliet fi isDir else decodeName fi isDir

/-- Where the System Use area of a record with an identifier of `fiLen` bytes starts. -/
def suStart (fiLen : ℕ) : ℕ := Dr.fileId + fiLen + (if fiLen % 2 = 0 then 1 else 0)

/-- The bytes of a continuation area, which lies in the volume. -/
def readContinuation (vol : Volume) (ce : Continuation) : m (List UInt8) := do
  let block ← u64 (ce.block * vol.blockSize)
  let at_ ← u64 (block + ce.offset)
  let stop ← u64 (at_ + ce.len)
  if stop > vol.src.len then fail (.corrupt "iso: Rock Ridge continuation past the volume")
  else vol.src.readAt at_ ce.len

/-- Follow the continuation areas, of which `left` more are allowed. -/
def parseContinuations (vol : Volume) (parser : RrParser) :
    Option Continuation → ℕ → m RrParser
  | none, _ => pure parser
  | some _, 0 => fail (.corrupt "iso: bad Rock Ridge continuation area")
  | some ce, left + 1 =>
    if ce.len = 0 ∨ ce.len > vol.blockSize then
      fail (.corrupt "iso: bad Rock Ridge continuation area")
    else do
      let area ← readContinuation vol ce
      let (parser, next) ← parser.feed area
      parseContinuations vol parser next left

def parseRockRidge (vol : Volume) (su : List UInt8) : m RrInfo := do
  let (parser, next) ← RrParser.default.feed su
  let parser ← parseContinuations vol parser next maxContinuations
  return parser.finish

/-- What the System Use area of a record adds to it. -/
def recordInfo (vol : Volume) (record : List UInt8) (fiLen : ℕ) : m RrInfo :=
  if vol.rockRidge ∧ suStart fiLen ≤ record.length then
    parseRockRidge vol ((record.drop (suStart fiLen)).drop vol.suspSkip)
  else pure RrParser.default.info

/-- The record of `len` bytes at index `pos`, and its file identifier. -/
def recordAt (buf : List UInt8) (pos len : ℕ) : Outcome (List UInt8 × List UInt8) := do
  let record ← okOr (slice buf pos len) (.corrupt "iso: directory record overruns extent")
  let fiLen ← okOr record[Dr.lenFi]? (.corrupt "iso: short record")
  let fi ← okOr (slice record Dr.fileId fiLen.toNat) (.corrupt "iso: file id overruns record")
  return (record, fi)

/-- The file identifier of the record at index `pos`. -/
def firstFi (buf : List UInt8) (pos : ℕ) : Outcome (List UInt8) := do
  let len ← okOr buf[pos]? (.corrupt "iso: short record")
  let (_, fi) ← recordAt buf pos len.toNat
  return fi

/-- The records of the directory itself and of its parent. -/
def isDot (fi : List UInt8) : Bool := fi = [0x00] ∨ fi = [0x01]

/-- A multi-extent file with the extent of one more record. -/
def addExtent (buf fi : List UInt8) (isDir : Bool) (lba size : ℕ) (inode : Inode) :
    Outcome Inode :=
  if isDir then fail (.corrupt "iso: broken multi-extent chain")
  else do
    let first ← firstFi buf inode.key.2
    if fi ≠ first then fail (.corrupt "iso: broken multi-extent chain")
    else if inode.extents.length ≥ maxExtents then fail (.corrupt "iso: too many extents")
    else do
      let total ← u64 (inode.size + size)
      return { inode with extents := inode.extents ++ [(lba, size)], size := total }

/-- The node of a record that starts a file. -/
def newEntry (vol : Volume) (dirLba pos : ℕ) (record fi : List UInt8) (isDir : Bool)
    (lba size : ℕ) : m (Str × Inode) := do
  let name ← fileName vol fi isDir
  let rr ← recordInfo vol record fi.length
  return (rr.name.getD name, {
    key := (dirLba, pos)
    lba := lba
    size := size
    extents := [(lba, size)]
    kind := if rr.symlinkTarget.isSome then .symlink else if isDir then .directory else .regular
    linkTarget := rr.symlinkTarget
    zisofs := rr.zisofs })

/-- The entries that a record completes, and the multi-extent file that it leaves
open. -/
def readRecord (vol : Volume) (dirLba : ℕ) (buf : List UInt8) (pos : ℕ) (record fi : List UInt8)
    (pending : Option (Str × Inode)) : m (List (Str × Inode) × Option (Str × Inode)) :=
  if isDot fi then pure ([], pending)
  else do
    let flags ← okOr record[Dr.fileFlags]? (.corrupt "iso: short flags")
    let isDir := flags &&& Dr.flagDirectory ≠ 0
    let lba ← leU32 record Dr.extentLbaLe
    let size ← leU32 record Dr.dataLenLe
    let more := flags &&& Dr.flagMultiExtent ≠ 0
    match pending with
    | some (first, inode) => do
      let inode ← addExtent buf fi isDir lba size inode
      return if more then ([], some (first, inode)) else ([(first, inode)], none)
    | none => do
      let entry ← newEntry vol dirLba pos record fi isDir lba size
      return if more ∧ ¬isDir then ([], some entry) else ([entry], none)

/-- A scan may not end inside a multi-extent file. -/
def finishScan (pending : Option (Str × Inode)) : Outcome (List (Str × Inode)) :=
  if pending.isSome then fail (.corrupt "iso: multi-extent file without its last record")
  else .ok []

/-- The entries from index `pos` on. -/
def entriesFrom (vol : Volume) (dirLba : ℕ) (buf : List UInt8) (pending : Option (Str × Inode))
    (pos : ℕ) : m (List (Str × Inode)) :=
  if pos < buf.length then do
    let len ← unwrap buf[pos]?
    if hzero : len.toNat = 0 then
      -- padding to the next logical sector
      let next := (pos / vol.blockSize + 1) * vol.blockSize
      if next ≤ pos then finishScan pending
      else entriesFrom vol dirLba buf pending next
    else do
      let (record, fi) ← recordAt buf pos len.toNat
      let (done, pending) ← readRecord vol dirLba buf pos record fi pending
      let rest ← entriesFrom vol dirLba buf pending (pos + len.toNat)
      return done ++ rest
  else finishScan pending
  termination_by buf.length - pos
  decreasing_by all_goals omega

/-- Name and node of each entry of a directory. -/
def forEachEntry (vol : Volume) (dir : Inode) : m (List (Str × Inode)) := do
  let buf ← readDirExtent vol.src vol.blockSize dir
  entriesFrom vol dir.lba buf none 0

section Zisofs

variable {ρ : Type} (codecs : Codecs ρ) (vol : Volume)

/-- Pointer `i` of the table behind the 16-byte header. -/
def blockPtr (head : List UInt8) (i : ℕ) : Outcome ℕ := do
  let field ← unwrap (slice head (16 + i * 4) 4)
  return leNat field

/-- A block between two pointers, which stores nothing when it is a hole. -/
def zisofsBlock (extentOff cstart cend uncompressed : ℕ) : m (List UInt8) :=
  if cend ≤ cstart then pure (List.replicate uncompressed 0)
  else do
    let clen ← checkedFullReadLen (cend - cstart)
    let at_ ← u64 (extentOff + cstart)
    let cbuf ← vol.src.readAt at_ clen
    decode codecs .zlib cbuf uncompressed

/-- Bytes `cur..stop` of a file of `size` bytes after `out`, up to the first block that
holds less. -/
def zisofsFrom (head : List UInt8) (extentOff blockSize size stop cur : ℕ) (out : List UInt8) :
    m (List UInt8) :=
  if cur < stop then do
    let blk := cur / blockSize
    let base ← u64 (blk * blockSize)
    let left ← minus size base
    let cstart ← blockPtr head blk
    let cend ← blockPtr head (blk + 1)
    let block ← zisofsBlock codecs vol extentOff cstart cend (min blockSize left)
    let inBlk ← minus cur base
    let take := min (block.length - inBlk) (stop - cur)
    if take = 0 then return out
    else do
      let bytes ← unwrap (slice block inBlk take)
      zisofsFrom head extentOff blockSize size stop (cur + take) (out ++ bytes)
  else pure out
  termination_by stop - cur

/-- A window of a compressed file. -/
def readZisofs (inode : Inode) (zi : Zisofs) (off : ℕ) (buf : List UInt8) :
    m (ℕ × List UInt8) :=
  if off ≥ zi.uncompressedSize then pure (0, buf)
  else if zi.blockSizeLog2 ≥ 31 then fail (.corrupt "zisofs: implausible block size")
  else do
    let blockSize := 1 <<< zi.blockSizeLog2
    let entries ← u64 (divCeil zi.uncompressedSize blockSize + 1)
    let tableBytes ← okOr (checkedU64 (entries * 4)) (.corrupt "zisofs: block table overflow")
    let total ← u64 (16 + tableBytes)
    let headLen ← checkedFullReadLen total
    let extentOff ← u64 (inode.lba * vol.blockSize)
    let head ← vol.src.readAt extentOff headLen
    let magic ← unwrap (slice head 0 8)
    if magic ≠ zisofsMagic then fail (.corrupt "zisofs: bad magic")
    else do
      let want := min buf.length (zi.uncompressedSize - off)
      let data ← zisofsFrom codecs vol head extentOff blockSize zi.uncompressedSize (off + want) off []
      return (data.length, overwrite buf 0 data)

end Zisofs

def probe (src : Source) : m Bool :=
  if src.len < vdRegionOffset + 8 then pure false
  else do
    let hdr ← src.readAt vdRegionOffset 8
    let id ← unwrap (slice hdr 1 5)
    return id = standardId

end Reading

/-- The node of the root record of a descriptor. -/
def rootRecord (vd : List UInt8) : Outcome Inode := do
  let rdr ← okOr (slice vd 156 34) (.corrupt "iso: short root directory record")
  let lba ← leU32 rdr Dr.extentLbaLe
  let size ← leU32 rdr Dr.dataLenLe
  return ⟨rootKey, lba, size, [(lba, size)], .directory, none, none⟩

/-- What a primary descriptor says. -/
structure PrimaryVd where
  blockSize : ℕ
  blockSize_pos : 0 < blockSize
  root : Inode
  deriving DecidableEq

/-- What the descriptors read so far say. -/
structure Vds where
  primary : Option PrimaryVd
  jolietRoot : Option Inode
  elToritoCatalogLba : Option ℕ
  deriving DecidableEq

def primaryVd (vd : List UInt8) : Outcome PrimaryVd := do
  let blockSize ← leU16 vd 128
  if hzero : blockSize = 0 then fail (.corrupt "iso: zero logical block size")
  else do
    let root ← rootRecord vd
    return ⟨blockSize, Nat.pos_of_ne_zero hzero, root⟩

/-- Take in a descriptor that does not end the sequence. -/
def readVd (vd : List UInt8) (type : UInt8) (found : Vds) : Outcome Vds :=
  if type = vdTypePrimary then do
    let primary ← primaryVd vd
    return { found with primary := some primary }
  else if type = vdTypeBootRecord then
    if slice vd 7 elToritoId.length = some elToritoId then do
      let lba ← leU32 vd etCatalogPtrOffset
      return { found with elToritoCatalogLba := some lba }
    else .ok found
  else if type = vdTypeSupplementary then do
    let esc ← unwrap (slice vd jolietEscapeOffset 3)
    if esc ∈ jolietEscapes then do
      let root ← rootRecord vd
      return { found with jolietRoot := some root }
    else return found
  else .ok found

section Opening

variable {m : Type → Type} [Monad m] [MonadLiftT Outcome m] [Reads m]

/-- Read `count` more descriptors, from number `i` on. -/
def scanVds (src : Source) : ℕ → ℕ → Vds → m Vds
  | 0, _, found => pure found
  | count + 1, i, found => do
    let off ← u64 (vdRegionOffset + i * vdSize)
    let stop ← u64 (off + vdSize)
    if stop > src.len then return found
    else do
      let vd ← src.readAt off vdSize
      let id ← unwrap (slice vd 1 5)
      if id ≠ standardId then fail (.corrupt "iso: missing CD001 standard id")
      else do
        let type ← unwrap vd[0]?
        if type = vdTypeTerminator then return found
        else do
          let found ← readVd vd type found
          scanVds src count (i + 1) found

/-- The skip length of the `SP` entry in the first record of the root. -/
def detectSusp (src : Source) (blockSize : ℕ) (root : Inode) : m (Option ℕ) := do
  let buf ← readDirExtent src blockSize root
  match buf with
  | [] => return none
  | len :: _ => do
    let record ← okOr (slice buf 0 len.toNat) (.corrupt "iso: short root record")
    let fiLen ← okOr record[Dr.lenFi]? (.corrupt "iso: short root record")
    detectSp (record.drop (suStart fiLen.toNat))

/-- The volume and its root: Rock Ridge is preferred to Joliet, and that to the plain
names. -/
def openVolume (src : Source) : m (Volume × Inode) := do
  let found ← scanVds src maxVdScan 0 ⟨none, none, none⟩
  let primary ← okOr found.primary (.corrupt "iso: no primary volume descriptor")
  let susp ← detectSusp src primary.blockSize primary.root
  let vol (rockRidge : Bool) (suspSkip : ℕ) (joliet : Bool) : Volume := {
    src := src
    blockSize := primary.blockSize
    blockSize_pos := primary.blockSize_pos
    rockRidge := rockRidge
    suspSkip := suspSkip
    joliet := joliet
    elToritoCatalogLba := found.elToritoCatalogLba }
  match susp, found.jolietRoot with
  | some skip, _ => return (vol true skip false, primary.root)
  | none, some root => return (vol false 0 true, root)
  | none, none => return (vol false 0 false, primary.root)

/-- The UEFI boot image, from the boot catalog. A sector count of 0 or 1 does not give
its size; its own boot sector does. -/
def uefiImage (vol : Volume) : m (Option ElTorito.UefiImage) :=
  match vol.elToritoCatalogLba with
  | none => pure none
  | some catLba => do
    let off ← u64 (catLba * vol.blockSize)
    let stop ← u64 (off + vdSize)
    if stop > vol.src.len then return none
    else do
      let cat ← vol.src.readAt off vdSize
      let image ← ElTorito.parseCatalog cat
      match image with
      | none => return none
      | some image =>
        if image.sectors ≤ 1 then do
          let at_ ← u64 (image.lba * vol.blockSize)
          let stop ← u64 (at_ + 512)
          if stop ≤ vol.src.len then do
            let boot ← vol.src.readAt at_ 512
            return some { image with
              sectors := (ElTorito.fatImageSectors boot).getD image.sectors }
          else return some image
        else return some image

end Opening

end Iso9660

/-- A mounted ISO 9660 volume. -/
structure Iso9660 where
  vol : Iso9660.Volume
  table : InternTable (ℕ × ℕ) Iso9660.Inode

namespace Iso9660

section Methods

variable {m : Type → Type} [Monad m] [MonadLiftT Outcome m] [Reads m]

/-- `FoldFrontend::open`. -/
def mount (src : Source) : m Iso9660 := do
  let (vol, root) ← openVolume src
  return ⟨vol, (InternTable.empty.intern root.key root).2⟩

/-- A window of a file that is stored as it is. -/
def readPlain (vol : Volume) (inode : Inode) (off : ℕ) (buf : List UInt8) :
    m (ℕ × List UInt8) :=
  if off ≥ inode.size then pure (0, buf)
  else do
    let data ← readExtents Prod.snd
      (fun e within n => do
        let start ← u64 (e.1 * vol.blockSize)
        let at_ ← u64 (start + within)
        vol.src.readAt at_ n)
      off (min buf.length (inode.size - off)) inode.extents 0 []
    return (data.length, overwrite buf 0 data)

variable {n : Type → Type} [Monad n]

def inode (node : NodeId) : MethodIn n Iso9660 Inode := do
  let iso ← get
  iso.table.inode node

def onTable {α : Type} (x : MethodIn n (InternTable (ℕ × ℕ) Inode) α) : MethodIn n Iso9660 α :=
  zoom Iso9660.table (fun t iso => { iso with table := t }) x

/-- The logical size of a compressed file is its decompressed length. -/
def metadata (node : NodeId) : MethodIn n Iso9660 Metadata := do
  let inode ← inode node
  return ⟨inode.kind, (inode.zisofs.map Zisofs.uncompressedSize).getD inode.size, 0⟩

def readLink (node : NodeId) : MethodIn n Iso9660 (Option (List UInt8)) := do
  let inode ← inode node
  return inode.linkTarget

variable [∀ σ, MonadLiftT m (MethodIn n σ)]

/-- `Iso9660::el_torito_uefi_image`. -/
def elToritoUefiImage : MethodIn n Iso9660 (Option ElTorito.UefiImage) := do
  let iso ← get
  (uefiImage iso.vol : m _)

/-- The entries of a directory. -/
def dirEntries (dir : NodeId) : MethodIn n Iso9660 (List (Str × Inode)) := do
  let dirInode ← inode dir
  if dirInode.kind ≠ .directory then throw (.err .notDirectory)
  else do
    let iso ← get
    (forEachEntry iso.vol dirInode : m _)

def lookup (dir : NodeId) (name : Str) : MethodIn n Iso9660 (Option NodeId) := do
  let entries ← dirEntries (m := m) dir
  match entries.find? fun entry => entry.1 = name with
  | none => return none
  | some (_, found) => do
    let node ← onTable (InternTable.internOne found.key found)
    return some node

def readDir (dir : NodeId) : MethodIn n Iso9660 (List DirEntry) := do
  let entries ← dirEntries (m := m) dir
  onTable (InternTable.internAll Inode.key (pure : Inode → m Inode) Inode.kind entries)

variable {ρ : Type} (zisofs : Bool) (codecs : Codecs ρ)

/-- Compressed files are read when the feature `zisofs` is on. -/
def readAt (node : NodeId) (off : ℕ) (buf : List UInt8) :
    MethodIn n Iso9660 (ℕ × List UInt8) := do
  let inode ← inode node
  if inode.kind = .directory then throw (.err .isDirectory)
  else do
    let iso ← get
    match inode.zisofs with
    | some zi =>
      if zisofs then (readZisofs codecs iso.vol inode zi off buf : m _)
      else throw (.err (.unsupported "zisofs-compressed file: enable the `zisofs` feature"))
    | none => (readPlain iso.vol inode off buf : m _)

def frontendIn : FoldFrontendIn n Iso9660 where
  root _ := 0
  lookup := lookup (m := m)
  readDir := readDir (m := m)
  metadata := metadata
  readAt := readAt (m := m) zisofs codecs
  readLink := readLink

end Methods

def frontend {ρ : Type} (zisofs : Bool) (codecs : Codecs ρ) : FoldFrontend Iso9660 :=
  frontendIn (m := Outcome) zisofs codecs

end Iso9660

end Lamfold
