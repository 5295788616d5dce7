import Lamfold.Codec
import Lamfold.Utf8

/-!
The cramfs frontend. An inode is read at its own offset each time, so the state
of a mounted volume never changes. A file is a table of page ends and the pages,
compressed one by one; a page that ends where it starts is a hole.
-/
namespace Lamfold

open Effects Bytes Utf8

/-- A mounted cramfs volume. -/
structure Cramfs where
  src : Source
  deriving DecidableEq

namespace Cramfs

def magic : ℕ := 0x28CD3D45

def rootInodeOff : ℕ := 64

def page : ℕ := 4096

def flagExtBlockPointers : ℕ := 0x0800

structure CrInode where
  mode : ℕ
  size : ℕ
  namelen : ℕ
  dataOff : ℕ
  deriving DecidableEq, Repr

def kind (mode : ℕ) : FileKind := modeKind mode

/-- The end offset of page `i`. -/
def ptr (idx : List UInt8) (i : ℕ) : Outcome ℕ := do
  let entry ← unwrap (slice idx (i * 4) 4)
  return leNat entry

section Reading

variable {m : Type → Type} [Monad m] [MonadLiftT Outcome m] [Reads m]

def parseInode (src : Source) (off : ℕ) : m CrInode := do
  let b ← src.readAt off 12
  let w0 := leNat (b.take 4)
  let w1 := leNat ((b.drop 4).take 4)
  let w2 := leNat (b.drop 8)
  return ⟨w0 &&& 0xFFFF, w1 &&& 0x00FFFFFF, (w2 &&& 0x3F) * 4, (w2 >>> 6) * 4⟩

section Pages

variable {ρ : Type} (codecs : Codecs ρ) (src : Source)

/-- At most `want` bytes of the page stored at `start..stop`. -/
def readPage (start stop want : ℕ) : m (List UInt8) :=
  if stop ≤ start then pure (List.replicate want 0)
  else do
    let comp ← src.readAt start (stop - start)
    decode codecs .zlib comp want

/-- The page loop of `read_whole`: page `i` starts at `start` and `out` is what
the pages before it gave. -/
def readPages (idx : List UInt8) (total nblocks i start : ℕ) (out : List UInt8) :
    m (List UInt8) :=
  if i < nblocks then do
    let stop ← ptr idx i
    let data ← readPage codecs src start stop (min page (total - out.length))
    readPages idx total nblocks (i + 1) stop (out ++ data)
  else pure out
  termination_by nblocks - i

/-- Inflate a whole file or symlink. -/
def readWhole (inode : CrInode) : m (List UInt8) := do
  let total ← checkedFullReadLen inode.size
  if total = 0 then return []
  else do
    let nblocks := divCeil inode.size page
    let idx ← src.readAt inode.dataOff (nblocks * 4)
    let start ← u64 (inode.dataOff + nblocks * 4)
    let out ← readPages codecs src idx total nblocks 0 start []
    return out.take total

end Pages

def probe (src : Source) : m Bool :=
  if src.len < rootInodeOff + 12 then pure false
  else do
    let m ← src.readAt 0 4
    return leNat m = magic

/-- `u32::swap_bytes`. -/
def swapBytes (n : ℕ) : ℕ := leNat (leBytes 4 n).reverse

/-- `FoldFrontend::open`. -/
def mount (src : Source) : m Cramfs :=
  if src.len < rootInodeOff + 12 then fail (.corrupt "cramfs: shorter than superblock")
  else do
    let head ← src.readAt 0 12
    let found := leNat (head.take 4)
    if found ≠ magic then
      if swapBytes found = magic then fail (.unsupported "cramfs: big-endian image")
      else fail (.corrupt "cramfs: bad magic")
    else
      let flags := leNat (head.drop 8)
      if flags &&& flagExtBlockPointers ≠ 0 then
        fail (.unsupported "cramfs: EXT_BLOCK_POINTERS extension")
      else return ⟨src⟩

/-- The inode and name records at `p..stop`. -/
def readRecords (src : Source) (stop p : ℕ) : m (List DirEntry) :=
  if p < stop then do
    let child ← parseInode src p
    let nameOff ← u64 (p + 12)
    let name ← src.readAt nameOff child.namelen
    let _ ← u64 (p + (12 + child.namelen))
    let rest ← readRecords src stop (p + (12 + child.namelen))
    return ⟨fromUtf8Lossy (name.takeWhile (· ≠ 0)), p, kind child.mode⟩ :: rest
  else pure []
  termination_by stop - p

section Methods

variable {ρ : Type} (codecs : Codecs ρ) (c : Cramfs)

def readDir (dir : NodeId) : m (List DirEntry) := do
  let inode ← parseInode c.src dir
  if kind inode.mode ≠ .directory then fail .notDirectory
  else do
    let stop ← u64 (inode.dataOff + inode.size)
    readRecords c.src stop inode.dataOff

def lookup (dir : NodeId) (name : Str) : m (Option NodeId) := do
  let entries ← c.readDir dir
  return entryNamed entries name

def metadata (node : NodeId) : m Metadata := do
  let inode ← parseInode c.src node
  return ⟨kind inode.mode, inode.size, inode.mode &&& 0o7777⟩

def readAt (node : NodeId) (off : ℕ) (buf : List UInt8) : m (ℕ × List UInt8) := do
  let inode ← parseInode c.src node
  if kind inode.mode = .directory then fail .isDirectory
  else if off ≥ inode.size then return (0, buf)
  else do
    let data ← readWhole codecs c.src inode
    let n := min buf.length (data.length - off)
    let window ← unwrap (slice data off n)
    return (n, overwrite buf 0 window)

def readLink (node : NodeId) : m (Option (List UInt8)) := do
  let inode ← parseInode c.src node
  if kind inode.mode ≠ .symlink then return none
  else do
    let target ← readWhole codecs c.src inode
    return some target

end Methods

def frontendIn {n : Type → Type} [Monad n] [∀ σ, MonadLiftT m (MethodIn n σ)] {ρ : Type}
    (codecs : Codecs ρ) : FoldFrontendIn n Cramfs where
  root _ := rootInodeOff
  lookup dir name := do ((← get).lookup dir name : m _)
  readDir dir := do ((← get).readDir dir : m _)
  metadata node := do ((← get).metadata node : m _)
  readAt node off buf := do ((← get).readAt codecs node off buf : m _)
  readLink node := do ((← get).readLink codecs node : m _)

end Reading

def frontend {ρ : Type} (codecs : Codecs ρ) : FoldFrontend Cramfs :=
  frontendIn (m := Outcome) codecs

end Cramfs

end Lamfold
