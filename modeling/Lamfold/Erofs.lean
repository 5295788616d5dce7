import Lamfold.ErofsVolume

/-!
A mounted EROFS volume and the operations it offers. Inodes are parsed once and
compressed files decoded once; file data passes the verifier block by block
before any of it is copied to the caller.
-/
namespace Lamfold

open Effects Bytes

/-- A mounted EROFS volume: what it was opened with, and the caches of inodes and
of decoded data. -/
structure Erofs where
  vol : Erofs.Volume
  inodes : Std.TreeMap NodeId Erofs.Inode
  decoded : Std.TreeMap NodeId (List UInt8)

namespace Erofs

section Methods

variable {m : Type → Type} [Monad m] [MonadLiftT Outcome m] [Reads m]

/-- The volume with the inode in its cache. -/
def withInode (fs : Erofs) (nid : NodeId) : m Erofs :=
  if fs.inodes.contains nid then pure fs
  else do
    let inode ← readInode fs.vol nid
    return { fs with inodes := fs.inodes.insert nid inode }

/-- `FoldFrontend::open`. -/
def mount (src : Source) : m Erofs := do
  let vol ← openVolume src
  withInode ⟨vol, ∅, ∅⟩ vol.rootNid

variable {n : Type → Type} [Monad n]

def inode (nid : NodeId) : MethodIn n Erofs Inode := do
  let fs ← get
  okOr fs.inodes[nid]? .notFound

variable [∀ σ, MonadLiftT m (MethodIn n σ)]

def parseInode (nid : NodeId) : MethodIn n Erofs Unit := do
  let fs ← get
  let fs ← (withInode fs nid : m _)
  set fs

def metadata (node : NodeId) : MethodIn n Erofs Metadata := do
  parseInode (m := m) node
  let inode ← inode node
  return ⟨inode.kind, inode.size, inode.mode &&& 0o7777⟩

variable {ρ : Type} (codecs : Codecs ρ)

def materializeCompressed (nid : NodeId) : MethodIn n Erofs Unit := do
  let fs ← get
  if fs.decoded.contains nid then return ()
  else do
    let inode ← inode nid
    let out ← (decodeInode codecs fs.vol inode : m _)
    set { fs with decoded := fs.decoded.insert nid out }

/-- Bytes `off..stop` of the decoded data. -/
def readDecoded (nid : NodeId) (off stop : ℕ) : MethodIn n Erofs (List UInt8) := do
  materializeCompressed (m := m) codecs nid
  let fs ← get
  let data ← okOr fs.decoded[nid]? (.corrupt "erofs: decode cache miss")
  okOr (slice data off (stop - off)) (.corrupt "erofs: decoded read past end")

/-- Bytes `off..stop` of an inode's data, where its layout puts them. -/
def readLayout (nid : NodeId) (inode : Inode) (off stop : ℕ) : MethodIn n Erofs (List UInt8) :=
  if inode.layout = compressedFull ∨ inode.layout = compressedCompact then
    readDecoded (m := m) codecs nid off stop
  else do
    let fs ← get
    (readFlat fs.vol inode off stop : m _)

/-- Read up to `buf.length` bytes of an inode's data from `off` on: the count,
and `buf` after the read. Nothing is verified here. -/
def readInodeData (nid : NodeId) (off : ℕ) (buf : List UInt8) :
    MethodIn n Erofs (ℕ × List UInt8) := do
  let inode ← inode nid
  if off ≥ inode.size then return (0, buf)
  else do
    let asked ← u64 (off + buf.length)
    let stop := min asked inode.size
    let seg ← readLayout (m := m) codecs nid inode off stop
    return (stop - off, overwrite buf 0 seg)

end Methods

/-- What a verified read does: show a block to the verifier, who answers, or copy
bytes of the block at `block` to index `dst` of the caller's buffer. -/
inductive Event
  | verified (start : ℕ) (data : List UInt8) (answer : Outcome Unit)
  | surfaced (block dst : ℕ) (bytes : List UInt8)

/-- A read in progress: the volume, the caller's buffer, the scratch block, and
what was done so far. The record of events is not part of the program. -/
structure Window where
  fs : Erofs
  buf : List UInt8
  block : List UInt8
  events : List Event

section Verified

variable {n : Type → Type} [Monad n]

def onVolume {α : Type} (x : MethodIn n Erofs α) : MethodIn n Window α :=
  zoom Window.fs (fun fs w => { w with fs := fs }) x

def verifyBlock (verifier : Verifier) (node : NodeId) (blockStart blockLen : ℕ) :
    MethodIn n Window Unit := do
  let w ← get
  let data := w.block.take blockLen
  let answer := verifier node blockStart data
  set { w with events := w.events ++ [Event.verified blockStart data answer] }
  answer

/-- Copy what the window wants of the block. Returns the count. -/
def surface (off stop blockStart blockLen : ℕ) : MethodIn n Window ℕ := do
  let copyStart := max off blockStart
  let copyEnd := min stop (blockStart + blockLen)
  if copyEnd > copyStart then do
    let w ← get
    let bytes := (w.block.drop (copyStart - blockStart)).take (copyEnd - copyStart)
    set { w with
      buf := overwrite w.buf (copyStart - off) bytes
      events := w.events ++ [Event.surfaced blockStart (copyStart - off) bytes] }
    return copyEnd - copyStart
  else return 0

variable {m : Type → Type} [Monad m] [MonadLiftT Outcome m] [Reads m]
  [∀ σ, MonadLiftT m (MethodIn n σ)]

variable {ρ : Type} (codecs : Codecs ρ)

/-- Fill the first `blockLen` bytes of the scratch block. -/
def fillBlock (node : NodeId) (blockStart blockLen : ℕ) : MethodIn n Window Unit := do
  let w ← get
  let (_, filled) ← onVolume
    (readInodeData (m := m) codecs node blockStart (w.block.take blockLen))
  modify fun w => { w with block := overwrite w.block 0 filled }

/-- The block loop of `read_at`. -/
def readBlocks (verifier : Verifier) (node : NodeId) (vol : Volume)
    (off stop size blockStart produced : ℕ) : MethodIn n Window ℕ :=
  if blockStart < stop then do
    let blockLen := min vol.blockSize (size - blockStart)
    fillBlock (m := m) codecs node blockStart blockLen
    verifyBlock verifier node blockStart blockLen
    let count ← surface off stop blockStart blockLen
    let _ ← u64 (blockStart + vol.blockSize)
    readBlocks verifier node vol off stop size (blockStart + vol.blockSize) (produced + count)
  else return produced
  termination_by stop - blockStart
  decreasing_by
    have hbs := vol.blockSize_pos
    omega

/-- A read that starts: no event yet, and a zeroed scratch block. -/
def Window.start (fs : Erofs) (buf : List UInt8) : Window :=
  ⟨fs, buf, List.replicate fs.vol.blockSize 0, []⟩

end Verified

/-- How the data of an inode is read into a buffer, and a window block by block. The
methods are the same for every data path. -/
structure DataPath (n : Type → Type) where
  readInodeData : NodeId → ℕ → List UInt8 → MethodIn n Erofs (ℕ × List UInt8)
  readBlocks : Verifier → NodeId → Volume → ℕ → ℕ → ℕ → ℕ → ℕ → MethodIn n Window ℕ

namespace DataPath

variable {m : Type → Type} [Monad m] [MonadLiftT Outcome m] [Reads m]
  {n : Type → Type} [Monad n] [∀ σ, MonadLiftT m (MethodIn n σ)] (path : DataPath n)

def readDir (dir : NodeId) : MethodIn n Erofs (List DirEntry) := do
  parseInode (m := m) dir
  let inode ← inode dir
  if inode.kind ≠ .directory then throw (.err .notDirectory)
  else do
    let size ← checkedFullReadLen inode.size
    let (_, data) ← path.readInodeData dir 0 (List.replicate size 0)
    let fs ← get
    parseDirData fs.vol data

def lookup (dir : NodeId) (name : Str) : MethodIn n Erofs (Option NodeId) := do
  let entries ← readDir (m := m) path dir
  return entryNamed entries name

def readLink (node : NodeId) : MethodIn n Erofs (Option (List UInt8)) := do
  parseInode (m := m) node
  let inode ← inode node
  if inode.kind ≠ .symlink then return none
  else do
    let len ← checkedFullReadLen inode.size
    let (_, target) ← path.readInodeData node 0 (List.replicate len 0)
    return some target

def readWindow (verifier : Verifier) (node : NodeId) (off : ℕ) : MethodIn n Window ℕ := do
  onVolume (parseInode (m := m) node)
  let inode ← onVolume (inode node)
  if inode.kind = .directory then throw (.err .isDirectory)
  else if off ≥ inode.size then return 0
  else do
    let w ← get
    let asked ← u64 (off + w.buf.length)
    let bs := w.fs.vol.blockSize
    path.readBlocks verifier node w.fs.vol off (min asked inode.size) inode.size (off / bs * bs) 0

def readAt (verifier : Verifier) (node : NodeId) (off : ℕ) (buf : List UInt8) :
    MethodIn n Erofs (ℕ × List UInt8) :=
  ExceptT.mk fun fs => do
    let (count, w) ← (readWindow (m := m) path verifier node off).run.run (.start fs buf)
    return (count.map fun k => (k, w.buf), w.fs)

def frontend (verifier : Verifier) : FoldFrontendIn n Erofs where
  root fs := fs.vol.rootNid
  lookup := lookup (m := m) path
  readDir := readDir (m := m) path
  metadata := metadata (m := m)
  readAt := readAt (m := m) path verifier
  readLink := readLink (m := m) path

end DataPath

section Frontend

variable {m : Type → Type} [Monad m] [MonadLiftT Outcome m] [Reads m]
  {n : Type → Type} [Monad n] [∀ σ, MonadLiftT m (MethodIn n σ)] {ρ : Type} (codecs : Codecs ρ)

def dataPath : DataPath n := ⟨readInodeData (m := m) codecs, readBlocks (m := m) codecs⟩

def readDir (dir : NodeId) : MethodIn n Erofs (List DirEntry) :=
  (dataPath (m := m) codecs).readDir (m := m) dir

def lookup (dir : NodeId) (name : Str) : MethodIn n Erofs (Option NodeId) :=
  (dataPath (m := m) codecs).lookup (m := m) dir name

def readLink (node : NodeId) : MethodIn n Erofs (Option (List UInt8)) :=
  (dataPath (m := m) codecs).readLink (m := m) node

def readWindow (verifier : Verifier) (node : NodeId) (off : ℕ) : MethodIn n Window ℕ :=
  (dataPath (m := m) codecs).readWindow (m := m) verifier node off

def readAt (verifier : Verifier) (node : NodeId) (off : ℕ) (buf : List UInt8) :
    MethodIn n Erofs (ℕ × List UInt8) :=
  (dataPath (m := m) codecs).readAt (m := m) verifier node off buf

def frontendIn (verifier : Verifier) : FoldFrontendIn n Erofs :=
  (dataPath (m := m) codecs).frontend (m := m) verifier

end Frontend

def frontend {ρ : Type} (codecs : Codecs ρ) (verifier : Verifier) : FoldFrontend Erofs :=
  frontendIn (m := Outcome) codecs verifier

end Erofs

end Lamfold
