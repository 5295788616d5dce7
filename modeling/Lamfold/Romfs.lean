import Lamfold.Substrate
import Lamfold.Utf8

/-!
The romfs frontend. Files are headers on chains; a hard link names the header it
stands for and is resolved to it. Nothing is compressed, and the state of a
mounted volume never changes.
-/
namespace Lamfold

open Effects Bytes Utf8

/-- A mounted romfs volume. -/
structure Romfs where
  src : Source
  firstHdr : ℕ
  deriving DecidableEq

namespace Romfs

/-- `-rom1fs-`. -/
def magic : List UInt8 := [0x2D, 0x72, 0x6F, 0x6D, 0x31, 0x66, 0x73, 0x2D]

def maxName : ℕ := 256

/-- A longer chain of hard links is corrupt. -/
def maxLinkHops : ℕ := 8

def ftHardlink : ℕ := 0

def ftDirectory : ℕ := 1

def ftRegular : ℕ := 2

def ftSymlink : ℕ := 3

structure Header where
  nextOff : ℕ
  ftype : ℕ
  info : ℕ
  size : ℕ
  name : Str
  dataOff : ℕ
  deriving DecidableEq, Repr

def align16 (n : ℕ) : ℕ := (n + 15) / 16 * 16

def beU32 (b : List UInt8) (o : ℕ) : Outcome ℕ := do
  let field ← okOr (slice b o 4) (.corrupt "romfs: truncated u32")
  return beNat field

/-- The index of the first NUL. -/
def nulAt (bytes : List UInt8) (what : String) : Outcome ℕ :=
  okOr (bytes.findIdx? (· = 0)) (.corrupt what)

section Reading

variable {m : Type → Type} [Monad m] [MonadLiftT Outcome m] [Reads m]

def readHeader (src : Source) (off : ℕ) : m Header := do
  let avail := min (16 + maxName) (src.len - off)
  if avail < 16 then fail (.corrupt "romfs: truncated header")
  else do
    let win ← src.readAt off avail
    let nextRaw ← beU32 win 0
    let info ← beU32 win 4
    let size ← beU32 win 8
    let nameBytes := win.drop 16
    let nul ← nulAt nameBytes "romfs: unterminated name"
    let dataOff ← u64 (off + 16 + align16 (nul + 1))
    return {
      nextOff := nextRaw &&& 0xFFFFFFF0
      ftype := nextRaw &&& 7
      info := info
      size := size
      name := fromUtf8Lossy (nameBytes.take nul)
      dataOff := dataOff }

/-- The header at `off` or, for a hard link, the one it leads to in at most
`hops` steps; also where that header is. -/
def followLinks (src : Source) : ℕ → ℕ → m (ℕ × Header)
  | 0, _ => fail (.corrupt "romfs: hard link chain too long")
  | hops + 1, off => do
    let h ← readHeader src off
    if h.ftype ≠ ftHardlink then return (off, h)
    else followLinks src hops h.info

def resolvedHeader (src : Source) (off : ℕ) : m (ℕ × Header) :=
  followLinks src (maxLinkHops + 1) off

def kind (ftype : ℕ) : FileKind :=
  if ftype = ftDirectory then .directory
  else if ftype = ftRegular then .regular
  else if ftype = ftSymlink then .symlink
  else .other

def probe (src : Source) : m Bool :=
  if src.len < 16 then pure false
  else do
    let m ← src.readAt 0 8
    return m = magic

/-- `FoldFrontend::open`. -/
def mount (src : Source) : m Romfs :=
  if src.len < 16 then fail (.corrupt "romfs: shorter than header")
  else do
    let avail := min (16 + maxName) src.len
    let head ← src.readAt 0 avail
    if head.take 8 ≠ magic then fail (.corrupt "romfs: bad magic")
    else do
      let nul ← nulAt (head.drop 16) "romfs: unterminated volume name"
      return ⟨src, 16 + align16 (nul + 1)⟩

/-- Bound on the headers of one directory. -/
def maxHeaders : ℕ := 1000000

/-- The entries on the chain of headers from `o` on. -/
def readChain (src : Source) : ℕ → ℕ → m (List DirEntry)
  | 0, _ => pure []
  | bound + 1, o =>
    if o = 0 then pure []
    else do
      let h ← readHeader src o
      if h.name ≠ [0x2E] ∧ h.name ≠ [0x2E, 0x2E] then do
        -- a hard link stands for its target: same node, same data
        let (node, target) ← resolvedHeader src o
        let rest ← readChain src bound h.nextOff
        return ⟨h.name, node, kind target.ftype⟩ :: rest
      else readChain src bound h.nextOff

variable (r : Romfs)

def readDir (dir : NodeId) : m (List DirEntry) := do
  let (_, head) ← resolvedHeader r.src dir
  if head.ftype ≠ ftDirectory then fail .notDirectory
  else readChain r.src maxHeaders head.info

def lookup (dir : NodeId) (name : Str) : m (Option NodeId) := do
  let entries ← r.readDir dir
  return entryNamed entries name

def metadata (node : NodeId) : m Metadata := do
  let (_, h) ← resolvedHeader r.src node
  return ⟨kind h.ftype, h.size, 0⟩

def readAt (node : NodeId) (off : ℕ) (buf : List UInt8) : m (ℕ × List UInt8) := do
  let (_, h) ← resolvedHeader r.src node
  if h.ftype = ftDirectory then fail .isDirectory
  else if off ≥ h.size then return (0, buf)
  else do
    let n := min buf.length (h.size - off)
    let disk ← u64 (h.dataOff + off)
    let data ← r.src.readAt disk n
    return (n, overwrite buf 0 data)

def readLink (node : NodeId) : m (Option (List UInt8)) := do
  let (_, h) ← resolvedHeader r.src node
  if h.ftype ≠ ftSymlink then return none
  else do
    let len ← checkedFullReadLen h.size
    let target ← r.src.readAt h.dataOff len
    return some target

def frontendIn {n : Type → Type} [Monad n] [∀ σ, MonadLiftT m (MethodIn n σ)] :
    FoldFrontendIn n Romfs where
  root r := r.firstHdr
  lookup dir name := do ((← get).lookup dir name : m _)
  readDir dir := do ((← get).readDir dir : m _)
  metadata node := do ((← get).metadata node : m _)
  readAt node off buf := do ((← get).readAt node off buf : m _)
  readLink node := do ((← get).readLink node : m _)

end Reading

def frontend : FoldFrontend Romfs := frontendIn (m := Outcome)

end Romfs

end Lamfold
