import Lamfold.Substrate
import Std.Data.TreeMap

/-!
The two lcluster indexes of a compressed EROFS inode, resolved to the list of
its pclusters: the full index has one fixed-size entry per logical cluster, the
compact index packs them in groups that share a base block address.
-/
namespace Lamfold.Erofs

open Effects Bytes

/-- The type of a logical cluster; two bits on disk. -/
inductive LcType
  | plain
  | head1
  | nonhead
  | head2
  deriving DecidableEq, Repr

def LcType.ofBits (n : ℕ) : LcType :=
  match n % 4 with
  | 0 => .plain
  | 1 => .head1
  | 2 => .nonhead
  | _ => .head2

/-- One pcluster: where its decompressed output starts, its lcluster type, the
block its data begins at, and how many blocks that data spans. -/
structure Head where
  start : ℕ
  ty : LcType
  blkaddr : ℕ
  cblkcnt : ℕ
  deriving DecidableEq, Repr

/-- Where the pcluster that lcluster `i` opens after `heads` starts. -/
def headStart (lcsize : ℕ) (heads : List Head) (i clusterofs : ℕ) : Outcome ℕ :=
  if heads = [] then .ok 0
  else do
    let base ← u64 (i * lcsize)
    u64 (base + clusterofs)

def legacyHeaderSize : ℕ := 16

/-- The pcluster is a hole. -/
def liHole : ℕ := 1 <<< 14

section Full

variable {m : Type → Type} [Monad m] [MonadLiftT Outcome m] [Reads m]

/-- The entries from lcluster `i` on, `count` of them, after the heads found
before. -/
def fullEntries (src : Source) (idx0 lcsize : ℕ) : ℕ → ℕ → List Head → m (List Head)
  | _, 0, heads => pure heads
  | i, count + 1, heads => do
    let offset ← u64 (i * 8)
    let offset ← u64 (idx0 + offset)
    let e ← src.readAt offset 8
    let advise := leNat (e.take 2)
    let ty := LcType.ofBits advise
    if ty = .nonhead then fullEntries src idx0 lcsize (i + 1) count heads
    else if advise &&& liHole ≠ 0 then fail (.unsupported "erofs: hole pcluster not supported")
    else do
      let clusterofs := leNat ((e.drop 2).take 2)
      let blkaddr := leNat (e.drop 4)
      let start ← headStart lcsize heads i clusterofs
      fullEntries src idx0 lcsize (i + 1) count (heads ++ [⟨start, ty, blkaddr, 1⟩])

def buildHeadsFull (src : Source) (mh lcsize nLc : ℕ) : m (List Head) := do
  let idx0 ← u64 (mh + legacyHeaderSize)
  fullEntries src idx0 lcsize 0 nLc []

end Full

def compactLobits : ℕ := 12

def compactEncbits : ℕ := 14

def compactCblkcntFlag : ℕ := 0x0800

def adviseBigPcluster : ℕ := 0x0002 ||| 0x0004

def isBig (advise : ℕ) : Bool := advise &&& adviseBigPcluster ≠ 0

/-- One unpacked lcluster: its type and value, the group it came from and that
group's base block address. -/
structure RawEntry where
  ty : LcType
  value : ℕ
  region : ℕ
  base : ℕ
  deriving DecidableEq, Repr

def RawEntry.ofCode (code region base : ℕ) : RawEntry :=
  ⟨.ofBits (code >>> compactLobits), code &&& 0x0FFF, region, base⟩

/-- A run of groups of `size` bytes, each of up to `per` entries and the base
block address in its last 4 bytes. Also the position and the group number after
the run. -/
def readGroups (size per : ℕ) (hper : 0 < per) (what : String)
    (unpack : List UInt8 → ℕ → Outcome (List ℕ)) (buf : List UInt8) (pos rid remaining : ℕ) :
    Outcome (List RawEntry × ℕ × ℕ) :=
  if remaining = 0 then .ok ([], pos, rid)
  else do
    let group ← okOr (slice buf pos size) (.corrupt what)
    let base := leNat (group.drop (size - 4))
    let codes ← unpack group (min per remaining)
    let (rest, pos, rid') ←
      readGroups size per hper what unpack buf (pos + size) (rid + 1) (remaining - per)
    return (codes.map (RawEntry.ofCode · rid base) ++ rest, pos, rid')
  termination_by remaining

/-- The first `n` of a group's two 16-bit entries. -/
def halves (group : List UInt8) (n : ℕ) : Outcome (List ℕ) :=
  .ok ([leNat (group.take 2), leNat ((group.drop 2).take 2)].take n)

/-- 8-byte groups of two 16-bit entries and the base. -/
def read4bGroups := readGroups 8 2 (by decide) "erofs: compact 4b group out of range" halves

/-- `compactEncbits` bits, least significant first, from bit `bitPos` on. -/
def readBitsLsb (buf : List UInt8) (bitPos : ℕ) : Outcome ℕ :=
  (List.range compactEncbits).foldlM (fun v k => do
    let bp := bitPos + k
    let byte ← okOr buf[bp >>> 3]? (.corrupt "erofs: compact bit offset out of range")
    return v ||| ((byte.toNat >>> (bp &&& 7)) &&& 1) <<< k) 0

/-- The first `n` of a pack's sixteen 14-bit entries. -/
def packed (pack : List UInt8) (n : ℕ) : Outcome (List ℕ) :=
  (List.range n).mapM fun s => readBitsLsb pack (s * compactEncbits)

/-- 32-byte packs of sixteen 14-bit entries and the base. -/
def read2bPacks := readGroups 32 16 (by decide) "erofs: compact 2b pack out of range" packed

def checkedU32 (n : ℕ) : Option ℕ := if n < 2 ^ 32 then some n else none

/-- The locals of `resolve_compact_heads`: the heads so far, the heads seen in
each group, and the head the following NONHEADs belong to. -/
structure Resolving where
  heads : List Head
  regionHeads : Std.TreeMap ℕ ℕ
  curHead : Option ℕ

def Resolving.init : Resolving := ⟨[], ∅, none⟩

/-- The entry of lcluster `i`. A big pcluster's block count comes with the
NONHEAD entry that has the flag. -/
def resolveEntry (lcsize : ℕ) (big : Bool) (st : Resolving) (e : RawEntry) (i : ℕ) :
    Outcome Resolving :=
  if e.ty = .nonhead then
    if big ∧ e.value &&& compactCblkcntFlag ≠ 0 then
      match st.curHead with
      | none => .ok st
      | some h => do
        let head ← unwrap st.heads[h]?
        let cblkcnt := e.value &&& 0x07FF
        if cblkcnt = 0 then fail (.unsupported "erofs: hole pcluster not supported")
        else return { st with heads := st.heads.set h { head with cblkcnt := cblkcnt } }
    else .ok st
  else do
    let start ← headStart lcsize st.heads i e.value
    if big then
      -- the address is filled in by the running sum
      return ⟨st.heads ++ [⟨start, e.ty, 0, 1⟩], st.regionHeads, some st.heads.length⟩
    else do
      let c := st.regionHeads.getD e.region 0
      let blkaddr ← okOr ((checkedU32 (e.base + 1)).bind fun b => checkedU32 (b + c))
        (.corrupt "erofs: compact blkaddr overflow")
      return ⟨st.heads ++ [⟨start, e.ty, blkaddr, 1⟩], st.regionHeads.insert e.region (c + 1),
        some st.heads.length⟩

/-- The running sum of block counts from `blk` on. -/
def placeBig (blk : ℕ) : List Head → Outcome (List Head)
  | [] => .ok []
  | [head] => .ok [{ head with blkaddr := blk }]
  | head :: next :: rest => do
    let blk' ← okOr (checkedU32 (blk + head.cblkcnt)) (.corrupt "erofs: compact blkaddr overflow")
    let placed ← placeBig blk' (next :: rest)
    return { head with blkaddr := blk } :: placed

/-- Every HEAD or PLAIN entry opens a pcluster, the first at logical 0. -/
def resolveCompactHeads (raw : List RawEntry) (lcsize advise : ℕ) : Outcome (List Head) := do
  let big := isBig advise
  let firstBase := (raw.head?.map RawEntry.base).getD 0
  let st ← raw.zipIdx.foldlM (fun st (e, i) => resolveEntry lcsize big st e i) .init
  if big then placeBig firstBase st.heads else return st.heads

/-- The zones of an index at `ebase`: an initial run of 4-byte groups that aligns
the packs to 32 bytes, the entries in packs, and a final run of 4-byte groups. -/
def zones (ebase nLc : ℕ) : ℕ × ℕ × ℕ :=
  let c4i := min (((32 - ebase % 32) / 4) &&& 7) nLc
  let c2b := (nLc - c4i) / 16 * 16
  (c4i, c2b, nLc - c4i - c2b)

/-- The bytes of an index with these zones. -/
def indexLen (c4i c2b c4f : ℕ) : ℕ := divCeil c4i 2 * 8 + c2b / 16 * 32 + divCeil c4f 2 * 8

/-- The entries of the three zones. -/
def readEntries (buf : List UInt8) (c4i c2b c4f : ℕ) : Outcome (List RawEntry) := do
  let (raw₁, pos, rid) ← read4bGroups buf 0 0 c4i
  let (raw₂, pos, rid) ← read2bPacks buf pos rid c2b
  let (raw₃, _, _) ← read4bGroups buf pos rid c4f
  return raw₁ ++ raw₂ ++ raw₃

def buildHeadsCompact {m : Type → Type} [Monad m] [MonadLiftT Outcome m] [Reads m]
    (src : Source) (ebase lcsize nLc advise : ℕ) : m (List Head) := do
  let (c4i, c2b, c4f) := zones ebase nLc
  let idxLen ← u64 (indexLen c4i c2b c4f)
  let cap ← checkedFullReadLen idxLen
  let buf ← src.readAt ebase cap
  let raw ← readEntries buf c4i c2b c4f
  resolveCompactHeads raw lcsize advise

end Lamfold.Erofs
