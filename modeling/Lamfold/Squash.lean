import Lamfold.Codec
import Lamfold.Intern
import Lamfold.Utf8

/-!
The SquashFS frontend. Inodes and directory listings lie in metadata blocks, which
are compressed one by one and read as one stream; file data lies in data blocks,
with the tails of files in shared fragment blocks. The key of an inode is its
reference: the metadata block and the offset in it.
-/
namespace Lamfold

open Effects Bytes Utf8

namespace SquashFs

/-- `hsqs`. -/
def magic : ℕ := 0x73717368

/-- Largest metadata block. -/
def metaMax : ℕ := 8192

def noFragment : ℕ := 0xFFFFFFFF

/-- The flag of a block that is stored as it is. -/
def sizeUncompressed : ℕ := 1 <<< 24

def sizeMask : ℕ := 0x00FFFFFF

/-- The data of a regular file: the sizes and positions of its blocks, and where its
tail is. -/
structure FileBody where
  blockSizes : List ℕ
  blockOffsets : List ℕ
  fragIdx : ℕ
  fragOff : ℕ
  deriving DecidableEq, Repr

inductive Body
  | dir (absBlock offset size : ℕ)
  | file (file : FileBody)
  | symlink (target : List UInt8)
  | other
  deriving DecidableEq, Repr

structure SquashInode where
  kind : FileKind
  size : ℕ
  body : Body
  deriving DecidableEq, Repr

/-- What the superblock says, with the source. -/
structure Volume where
  src : Source
  codec : Codec
  blockSize : ℕ
  blockSize_range : 0 < blockSize ∧ blockSize ≤ 1 <<< 20
  inodeTableStart : ℕ
  directoryTableStart : ℕ
  fragmentTableStart : ℕ
  deriving DecidableEq

def leU16 := leAt 2 "squashfs: truncated u16"

def leU32 := leAt 4 "squashfs: truncated u32"

def leU64 := leAt 8 "squashfs: truncated u64"

section Reading

variable {m : Type → Type} [Monad m] [MonadLiftT Outcome m] [Reads m]

variable {ρ : Type} (codecs : Codecs ρ) (vol : Volume)

/-- A stored block of at most `max` bytes, decompressed unless it is `plain`. -/
def unpack (plain : Prop) [Decidable plain] (raw : List UInt8) (max : ℕ) : Outcome (List UInt8) :=
  if plain then .ok raw else decode codecs vol.codec raw max

/-- Where each data block starts: they follow each other back to back. -/
def blockOffsets : ℕ → List ℕ → Outcome (List ℕ)
  | _, [] => .ok []
  | here, bs :: sizes => do
    let next ← u64 (here + (bs &&& sizeMask))
    let rest ← blockOffsets next sizes
    return here :: rest

def blockCount (size fragIdx : ℕ) : ℕ :=
  if fragIdx ≠ noFragment then size / vol.blockSize else divCeil size vol.blockSize

/-- The entries of a listing from index `p` on, `left` of them under a header with
inode block `start`. -/
def listingFrom (listing : List UInt8) (start left p : ℕ) : Outcome (List (Str × ℕ)) :=
  if 0 < left ∧ p + 8 ≤ listing.length then do
    let eoff ← leU16 listing p
    let nlen ← leU16 listing (p + 6)
    let name ← okOr (slice listing (p + 8) (nlen + 1)) (.corrupt "squashfs: dir entry name OOB")
    let rest ← listingFrom listing start (left - 1) (p + (8 + (nlen + 1)))
    return (fromUtf8Lossy name, start <<< 16 ||| eoff) :: rest
  else if p + 12 ≤ listing.length then do
    -- a header: the number of its entries, less one, and their inode block
    let count ← leU32 listing p
    let start ← leU32 listing (p + 4)
    listingFrom listing start (count + 1) (p + 12)
  else .ok []
  termination_by listing.length - p

/-- The metadata block at offset `at_`, and the offset of the next one. -/
def readMetaBlock (at_ : ℕ) : m (List UInt8 × ℕ) := do
  let hdr ← vol.src.readAt at_ 2
  let h := leNat hdr
  let len := h &&& 0x7FFF
  let start ← u64 (at_ + 2)
  let raw ← vol.src.readAt start len
  let data ← unpack codecs vol (h &&& 0x8000 ≠ 0) raw metaMax
  let next ← u64 (at_ + 2 + len)
  return (data, next)

/-- The loop of `read_meta_span` in `block` from index `pos` on; the next block is at
`next`. -/
def readMetaFrom (length : ℕ) (block : List UInt8) (next pos : ℕ) (out : List UInt8) :
    m (List UInt8) :=
  if out.length < length then
    if pos ≥ block.length then do
      let (block, next) ← readMetaBlock codecs vol next
      if block = [] then return out
      else do
        let take := min (length - out.length) block.length
        readMetaFrom length block next take (out ++ block.take take)
    else do
      let take := min (length - out.length) (block.length - pos)
      readMetaFrom length block next (pos + take) (out ++ (block.drop pos).take take)
  else pure out
  termination_by length - out.length
  decreasing_by
    · have hpos : 0 < block.length := List.length_pos_iff.mpr ‹_›
      simp only [List.length_append, List.length_take]
      omega
    · simp only [List.length_append, List.length_take, List.length_drop]
      omega

/-- `length` bytes from byte `offset` of the metadata block at `absBlock` on; fewer
when an empty block follows. -/
def readMetaSpan (absBlock offset length : ℕ) : m (List UInt8) := do
  let _ ← checkedFullReadLen length
  let (block, next) ← readMetaBlock codecs vol absBlock
  readMetaFrom codecs vol length block next offset []

/-- A file inode with a header of `headLen` bytes, which the block list follows. -/
def parseFile (abs off headLen blocksStart size fragIdx fragOff : ℕ) : m SquashInode := do
  let n := blockCount vol size fragIdx
  let len ← u64 (headLen + n * 4)
  let full ← readMetaSpan codecs vol abs off len
  let sizes ← ((List.range n).mapM fun i => leU32 full (headLen + i * 4) : Outcome _)
  let offsets ← blockOffsets blocksStart sizes
  return ⟨.regular, size, .file ⟨sizes, offsets, fragIdx, fragOff⟩⟩

def parseBasicDir (abs off : ℕ) : m SquashInode := do
  let b ← readMetaSpan codecs vol abs off 32
  let size ← leU16 b 24
  let start ← leU32 b 16
  let absBlock ← u64 (vol.directoryTableStart + start)
  let offset ← leU16 b 26
  return ⟨.directory, size, .dir absBlock offset size⟩

def parseExtendedDir (abs off : ℕ) : m SquashInode := do
  let b ← readMetaSpan codecs vol abs off 40
  let size ← leU32 b 20
  let start ← leU32 b 24
  let absBlock ← u64 (vol.directoryTableStart + start)
  let offset ← leU16 b 34
  return ⟨.directory, size, .dir absBlock offset size⟩

def parseBasicFile (abs off : ℕ) : m SquashInode := do
  let h ← readMetaSpan codecs vol abs off 32
  let blocksStart ← leU32 h 16
  let fragIdx ← leU32 h 20
  let fragOff ← leU32 h 24
  let size ← leU32 h 28
  parseFile codecs vol abs off 32 blocksStart size fragIdx fragOff

def parseExtendedFile (abs off : ℕ) : m SquashInode := do
  let h ← readMetaSpan codecs vol abs off 56
  let blocksStart ← leU64 h 16
  let size ← leU64 h 24
  let fragIdx ← leU32 h 44
  let fragOff ← leU32 h 48
  parseFile codecs vol abs off 56 blocksStart size fragIdx fragOff

def parseSymlink (abs off : ℕ) : m SquashInode := do
  let h ← readMetaSpan codecs vol abs off 24
  let len ← leU32 h 20
  let targetSize ← checkedFullReadLen len
  let full ← readMetaSpan codecs vol abs off (24 + targetSize)
  let target ← okOr (slice full 24 targetSize) (.corrupt "squashfs: symlink target OOB")
  return ⟨.symlink, targetSize, .symlink target⟩

/-- The inode of type `itype` at byte `off` of the metadata block at `abs`. -/
def parseTyped (itype abs off : ℕ) : m SquashInode :=
  if itype = 1 then parseBasicDir codecs vol abs off
  else if itype = 8 then parseExtendedDir codecs vol abs off
  else if itype = 2 then parseBasicFile codecs vol abs off
  else if itype = 9 then parseExtendedFile codecs vol abs off
  else if itype = 3 ∨ itype = 10 then parseSymlink codecs vol abs off
  else pure ⟨.other, 0, .other⟩

/-- The inode of a reference, `block << 16 | offset`. -/
def parseInode (inodeRef : ℕ) : m SquashInode := do
  let abs ← u64 (vol.inodeTableStart + inodeRef >>> 16)
  let off := inodeRef &&& 0xFFFF
  let head ← readMetaSpan codecs vol abs off 16
  let itype ← leU16 head 0
  parseTyped codecs vol itype abs off

/-- Name and inode reference of each entry; `size` counts three bytes that are not
stored. -/
def dirEntries (absBlock offset size : ℕ) : m (List (Str × ℕ)) := do
  let listing ← readMetaSpan codecs vol absBlock offset (size - 3)
  listingFrom listing 0 0 0

/-- One data or fragment block; nothing is stored of a sparse one. -/
def readDataBlock (at_ rawSize : ℕ) : m (List UInt8) := do
  let len := rawSize &&& sizeMask
  if len = 0 then return []
  else do
    let raw ← vol.src.readAt at_ len
    unpack codecs vol (rawSize &&& sizeUncompressed ≠ 0) raw vol.blockSize

/-- A fragment block. The table is an array of pointers to metadata blocks of 512
entries. -/
def readFragment (idx : ℕ) : m (List UInt8) := do
  let at_ ← u64 (vol.fragmentTableStart + idx / 512 * 8)
  let ptr ← vol.src.readAt at_ 8
  let fe ← readMetaSpan codecs vol (leNat ptr) (idx % 512 * 16) 16
  let start ← leU64 fe 0
  let rawSize ← leU32 fe 8
  readDataBlock codecs vol start rawSize

/-- `want` bytes from byte `within` of block `idx` of a file. -/
def readBlock (file : FileBody) (idx within want : ℕ) : m (List UInt8) :=
  match file.blockSizes[idx]? with
  | some raw =>
    if raw &&& sizeMask = 0 then pure (List.replicate want 0)
    else do
      let at_ ← unwrap file.blockOffsets[idx]?
      let block ← readDataBlock codecs vol at_ raw
      okOr (slice block within want) (.corrupt "squashfs: data block shorter than its file")
  | none =>
    if file.fragIdx ≠ noFragment ∧ idx = file.blockSizes.length then do
      let frag ← readFragment codecs vol file.fragIdx
      okOr (slice frag (file.fragOff + within) want) (.corrupt "squashfs: fragment tail OOB")
    else fail (.corrupt "squashfs: file longer than its blocks")

/-- Bytes `pos..stop` of a file, block by block, after `out`. -/
def readBlocks (size : ℕ) (file : FileBody) (stop pos : ℕ) (out : List UInt8) :
    m (List UInt8) :=
  if pos < stop then do
    let idx := pos / vol.blockSize
    let within := pos % vol.blockSize
    let base ← u64 (idx * vol.blockSize)
    let left ← minus size base
    let inBlock ← minus (min vol.blockSize left) within
    let want := min inBlock (stop - pos)
    if want = 0 then (.error .hang : Outcome _)
    else do
      let bytes ← readBlock codecs vol file idx within want
      readBlocks size file stop (pos + want) (out ++ bytes)
  else pure out
  termination_by stop - pos

end Reading

def codecOf (id : ℕ) : Outcome Codec :=
  if id = 1 then .ok .zlib
  else if id = 3 then .ok .lzo
  else if id = 4 then .ok .xz
  else if id = 5 then .ok .lz4
  else if id = 6 then .ok .zstd
  else if id = 2 then fail (.unsupported "squashfs: legacy lzma1 compression")
  else fail (.unsupported "squashfs: unknown compression id")

section Opening

variable {m : Type → Type} [Monad m] [MonadLiftT Outcome m] [Reads m]

def probe (src : Source) : m Bool :=
  if src.len < 4 then pure false
  else do
    let m ← src.readAt 0 4
    return leNat m = magic

/-- The volume of a superblock, and the reference of its root inode. -/
def openVolume (src : Source) : m (Volume × ℕ) :=
  if src.len < 96 then fail (.corrupt "squashfs: source shorter than superblock")
  else do
    let sb ← src.readAt 0 96
    let found ← leU32 sb 0
    if found ≠ magic then fail (.corrupt "squashfs: bad magic")
    else do
      let id ← leU16 sb 20
      let codec ← codecOf id
      let blockSize ← leU32 sb 12
      if hrange : 0 < blockSize ∧ blockSize ≤ 1 <<< 20 then do
        let rootRef ← leU64 sb 32
        let inodeTableStart ← leU64 sb 64
        let directoryTableStart ← leU64 sb 72
        let fragmentTableStart ← leU64 sb 80
        return ({
          src := src
          codec := codec
          blockSize := blockSize
          blockSize_range := hrange
          inodeTableStart := inodeTableStart
          directoryTableStart := directoryTableStart
          fragmentTableStart := fragmentTableStart }, rootRef)
      else fail (.corrupt "squashfs: implausible block size")

end Opening

end SquashFs

/-- A mounted SquashFS volume; the key of an inode is its reference. -/
structure SquashFs where
  vol : SquashFs.Volume
  table : InternTable ℕ SquashFs.SquashInode

namespace SquashFs

section Methods

variable {m : Type → Type} [Monad m] [MonadLiftT Outcome m] [Reads m]
  {ρ : Type} (codecs : Codecs ρ)

/-- `FoldFrontend::open`. -/
def mount (src : Source) : m SquashFs := do
  let (vol, rootRef) ← openVolume src
  let root ← parseInode codecs vol rootRef
  return ⟨vol, (InternTable.empty.intern rootRef root).2⟩

/-- A window of a regular file. Only the blocks it touches are read. -/
def readFile (vol : Volume) (size : ℕ) (file : FileBody) (off : ℕ) (buf : List UInt8) :
    m (ℕ × List UInt8) :=
  if off ≥ size then pure (0, buf)
  else do
    let asked ← u64 (off + buf.length)
    let stop := min size asked
    let data ← readBlocks codecs vol size file stop off []
    return (stop - off, overwrite buf 0 data)

variable {n : Type → Type} [Monad n]

def inode (node : NodeId) : MethodIn n SquashFs SquashInode := do
  let fs ← get
  fs.table.inode node

def onTable {α : Type} (x : MethodIn n (InternTable ℕ SquashInode) α) : MethodIn n SquashFs α :=
  zoom SquashFs.table (fun t fs => { fs with table := t }) x

def metadata (node : NodeId) : MethodIn n SquashFs Metadata := do
  let inode ← inode node
  return ⟨inode.kind, inode.size, 0⟩

def readLink (node : NodeId) : MethodIn n SquashFs (Option (List UInt8)) := do
  let inode ← inode node
  match inode.body with
  | .symlink target => return some target
  | _ => return none

variable [∀ σ, MonadLiftT m (MethodIn n σ)]

def readDir (dir : NodeId) : MethodIn n SquashFs (List DirEntry) := do
  let inode ← inode dir
  match inode.body with
  | .dir absBlock offset size => do
    let fs ← get
    let entries ← (dirEntries codecs fs.vol absBlock offset size : m _)
    let parse : ℕ → m SquashInode := parseInode codecs fs.vol
    onTable (InternTable.internAll id parse SquashInode.kind entries)
  | _ => throw (.err .notDirectory)

def lookup (dir : NodeId) (name : Str) : MethodIn n SquashFs (Option NodeId) := do
  let entries ← readDir (m := m) codecs dir
  return entryNamed entries name

def readAt (node : NodeId) (off : ℕ) (buf : List UInt8) :
    MethodIn n SquashFs (ℕ × List UInt8) := do
  let inode ← inode node
  match inode.body with
  | .file file => do
    let fs ← get
    (readFile codecs fs.vol inode.size file off buf : m _)
  | _ =>
    if inode.kind = .directory then throw (.err .isDirectory)
    else throw (.err (.unsupported "squashfs: read of a non-regular inode"))

def frontendIn : FoldFrontendIn n SquashFs where
  root _ := 0
  lookup := lookup (m := m) codecs
  readDir := readDir (m := m) codecs
  metadata := metadata
  readAt := readAt (m := m) codecs
  readLink := readLink

end Methods

def frontend {ρ : Type} (codecs : Codecs ρ) : FoldFrontend SquashFs :=
  frontendIn (m := Outcome) codecs

end SquashFs

end Lamfold
