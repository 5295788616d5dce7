import Lamfold.Streams
import Lamfold.Path
import Std.Data.TreeMap

/-!
A cpio archive, or an initramfs made of several, as a read-only tree. The newc
and CRC formats are parsed here, archive after archive; a compressed member is
decoded and its archives parsed the same way. The older formats go through the
`cpio_reader` iterator as a single archive.
-/
namespace Lamfold

open Effects Bytes Utf8 Streams

namespace Cpio

def sIfmt : ℕ := 0o170000

def sIfdir : ℕ := 0o040000

def sIfreg : ℕ := 0o100000

def sIflnk : ℕ := 0o120000

/-- The magic, then 13 fields of 8 hex digits. -/
def newcHeader : ℕ := 110

def newcMagic : List UInt8 := [0x30, 0x37, 0x30, 0x37, 0x30, 0x31]

def crcMagic : List UInt8 := [0x30, 0x37, 0x30, 0x37, 0x30, 0x32]

def trailer : List UInt8 := [0x54, 0x52, 0x41, 0x49, 0x4C, 0x45, 0x52, 0x21, 0x21, 0x21]

/-- The kernel's limit on a name. -/
def maxName : ℕ := 4096

/-- A hard link's identity within one archive. -/
structure Inode where
  devmajor : ℕ
  devminor : ℕ
  ino : ℕ
  deriving DecidableEq, Repr

/-- One newc or CRC record; `name` and `data` are an offset and a length. -/
structure Record where
  name : ℕ × ℕ
  mode : ℕ
  inode : Inode
  nlink : ℕ
  data : ℕ × ℕ
  deriving DecidableEq, Repr

/-- `(n + 3) & !3`. -/
def align4 (n : ℕ) : ℕ := (n + 3) / 4 * 4

/-- `char::to_digit(16)`. -/
def toDigit (d : UInt8) : Option ℕ :=
  if 0x30 ≤ d ∧ d ≤ 0x39 then some (d.toNat - 0x30)
  else if 0x61 ≤ d ∧ d ≤ 0x66 then some (d.toNat - 0x61 + 10)
  else if 0x41 ≤ d ∧ d ≤ 0x46 then some (d.toNat - 0x41 + 10)
  else none

/-- The 8 hex digits of header field `i` of the header at `start`. -/
def hexField (archive : List UInt8) (start i : ℕ) : Outcome ℕ := do
  let digits ← okOr (slice archive (start + 6 + i * 8) 8) (.corrupt "cpio_short_header")
  digits.foldlM (fun acc d => do
    let v ← okOr (toDigit d) (.corrupt "cpio_bad_header")
    return acc <<< 4 ||| v) 0

/-- The byte sum of a record's data, as a `u32`. -/
def checksum (data : List UInt8) : ℕ := data.foldl (fun a b => (a + b.toNat) % 2 ^ 32) 0

/-- The CRC format's check, which covers regular files only. -/
def checkData (archive : List UInt8) (crc : Bool) (mode check dataStart dataEnd : ℕ) :
    Outcome Unit :=
  if crc ∧ mode &&& sIfmt = sIfreg then do
    let data ← unwrap (sliceRange archive dataStart dataEnd)
    if checksum data ≠ check then fail (.corrupt "cpio_bad_crc") else .ok ()
  else .ok ()

/-- The record at `start`, its magic already checked, and the offset of the next. -/
def parseRecord (archive : List UInt8) (start : ℕ) (crc : Bool) : Outcome (Record × ℕ) := do
  let field := hexField archive start
  let ino ← field 0
  let mode ← field 1
  let nlink ← field 4
  let filesize ← field 6
  let devmajor ← field 7
  let devminor ← field 8
  let namesize ← field 11
  let check ← field 12
  if namesize = 0 ∨ namesize > maxName then fail (.corrupt "cpio_bad_namesize")
  else
    let nameStart := start + newcHeader
    -- the name ends in a NUL counted by namesize
    let nameEnd := nameStart + namesize - 1
    if archive[nameEnd]? ≠ some 0 then fail (.corrupt "cpio_bad_name")
    else
      let dataStart := align4 (nameStart + namesize)
      let dataEnd := dataStart + filesize
      if archive.length < dataEnd then fail (.corrupt "cpio_short_data")
      else do
        checkData archive crc mode check dataStart dataEnd
        return (⟨(nameStart, nameEnd - nameStart), mode, ⟨devmajor, devminor, ino⟩, nlink,
          (dataStart, filesize)⟩, align4 dataEnd)

/-- `len` bytes at `off` in buffer `buf`: 0 is the input, then one buffer per
decompressed member. -/
structure Span where
  buf : ℕ
  off : ℕ
  len : ℕ
  deriving DecidableEq, Repr

structure Node where
  kind : FileKind
  data : Span
  mode : ℕ
  children : Std.TreeMap Str NodeId

def Node.dir (mode : ℕ) : Node := ⟨.directory, ⟨0, 0, 0⟩, mode, ∅⟩

def fileKind (mode : ℕ) : FileKind :=
  if mode &&& sIfmt = sIfdir then .directory
  else if mode &&& sIfmt = sIfreg then .regular
  else if mode &&& sIfmt = sIflnk then .symlink
  else .other

/-- What a record puts at its path. -/
structure Entry where
  kind : FileKind
  mode : ℕ
  data : Span
  deriving DecidableEq, Repr

def Node.ofEntry (e : Entry) : Node := ⟨e.kind, e.data, e.mode, ∅⟩

/-- The node with kind, data and mode of `e` and the children it had. -/
def Node.fill (n : Node) (e : Entry) : Node := ⟨e.kind, e.data, e.mode, n.children⟩

def Node.link (n : Node) (name : Str) (child : NodeId) : Node :=
  { n with children := n.children.insert name child }

/-- The `for` loop of `insert`, from the node `cur` on. -/
def insertAt (nodes : List Node) (cur : NodeId) (comps : List Str) (e : Entry) :
    Outcome (List Node) :=
  match comps with
  | [] => .ok nodes
  | comp :: rest => do
    let node ← unwrap nodes[cur]?
    match node.children[comp]? with
    | some existing =>
      -- an explicit record can fill in a node first implied by a child
      if rest = [] ∧ e.kind ≠ .directory then
        let old ← unwrap nodes[existing]?
        insertAt (nodes.set existing (old.fill e)) existing rest e
      else insertAt nodes existing rest e
    | none =>
      let id := nodes.length
      let nodes := nodes ++ [if rest = [] then .ofEntry e else .dir 0o755]
      insertAt (nodes.set cur (node.link comp id)) id rest e

/-- Fold one archive record into the tree at its path. -/
def insert (nodes : List Node) (path : Str) (e : Entry) : Outcome (List Node) :=
  insertAt nodes 0 (Path.components path) e

theorem hexField_range {archive : List UInt8} {start i n : ℕ}
    (h : hexField archive start i = .ok n) : start + 6 + i * 8 + 8 ≤ archive.length := by
  unfold hexField at h
  obtain ⟨digits, hdigits, -⟩ := bind_eq_ok.mp h
  exact (slice_eq_some.mp (okOr_eq_ok.mp hdigits)).1

theorem le_align4 (n : ℕ) : n ≤ align4 n := by
  unfold align4
  omega

/-- A parsed record starts inside the archive and ends after its start. -/
theorem parseRecord_next_gt {archive : List UInt8} {start next : ℕ} {crc : Bool} {r : Record}
    (h : parseRecord archive start crc = .ok (r, next)) :
    start < next ∧ start < archive.length := by
  unfold parseRecord at h
  obtain ⟨ino, hino, h⟩ := bind_eq_ok.mp h
  have hrange := hexField_range hino
  simp only [bind_eq_ok] at h
  obtain ⟨mode, -, nlink, -, filesize, -, devmajor, -, devminor, -, namesize, -, check, -, h⟩ := h
  split at h
  · exact absurd h (fail_ne_ok _ _)
  split at h
  · exact absurd h (fail_ne_ok _ _)
  split at h
  · exact absurd h (fail_ne_ok _ _)
  obtain ⟨-, -, h⟩ := bind_eq_ok.mp h
  have hnext : next = align4 (align4 (start + newcHeader + namesize) + filesize) := by
    cases h
    rfl
  have hname := le_align4 (start + newcHeader + namesize)
  have hdata := le_align4 (align4 (start + newcHeader + namesize) + filesize)
  unfold newcHeader at hname hdata hnext
  exact ⟨by omega, by omega⟩

/-- The records of the archive at `pos` before its trailer, and the offset
after the trailer. -/
def records (archive : List UInt8) (pos : ℕ) : Outcome (List Record × ℕ) :=
  match slice archive pos 6 with
  | none => fail (.corrupt "cpio_no_trailer")
  | some magic =>
    if magic ≠ crcMagic ∧ magic ≠ newcMagic then fail (.corrupt "cpio_bad_magic")
    else
      match _h : parseRecord archive pos (magic = crcMagic) with
      | .error e => .error e
      | .ok (record, next) => do
        let name ← unwrap (slice archive record.name.1 record.name.2)
        if name = trailer then return ([], next)
        else
          let (rest, stop) ← records archive next
          return (record :: rest, stop)
  termination_by archive.length - pos
  decreasing_by
    have hgt := parseRecord_next_gt _h
    omega

/-- newc stores a hard-linked file's data once, with the last of its links that
has any; the first match in the list is the last record. -/
def linked (records : List Record) : List (Inode × (ℕ × ℕ)) :=
  records.foldl (fun found r =>
    if r.mode &&& sIfmt = sIfreg ∧ r.nlink > 1 ∧ r.data.2 > 0 then (r.inode, r.data) :: found
    else found) []

/-- The range of a record's data, the other links' data included. -/
def dataRange (linked : List (Inode × (ℕ × ℕ))) (r : Record) : ℕ × ℕ :=
  if fileKind r.mode = .regular ∧ r.nlink > 1 then (linked.lookup r.inode).getD r.data else r.data

def insertRecord (archive : List UInt8) (idx : ℕ) (linked : List (Inode × (ℕ × ℕ)))
    (nodes : List Node) (r : Record) : Outcome (List Node) := do
  let bytes ← unwrap (slice archive r.name.1 r.name.2)
  let name ← okOr (fromUtf8 bytes) (.unsupported "cpio_name_not_utf8")
  let (off, len) := dataRange linked r
  insert nodes name ⟨fileKind r.mode, r.mode &&& 0o7777, ⟨idx, off, len⟩⟩

/-- Fold the newc/CRC archive at `start` of buffer `idx` into the tree; also
the offset after its trailer. -/
def insertNewcArchive (archive : List UInt8) (idx : ℕ) (nodes : List Node) (start : ℕ) :
    Outcome (List Node × ℕ) := do
  let (rs, pos) ← records archive start
  let nodes ← rs.foldlM (insertRecord archive idx (linked rs)) nodes
  return (nodes, pos)

theorem records_gt {archive : List UInt8} {pos stop : ℕ} {rs : List Record}
    (h : records archive pos = .ok (rs, stop)) : pos < stop := by
  induction pos using records.induct archive generalizing rs stop with
  | case1 pos hnone =>
    rw [records, hnone] at h
    exact absurd h (fail_ne_ok _ _)
  | case2 pos magic hmagic hbad =>
    rw [records, hmagic] at h
    simp only [if_pos hbad] at h
    exact absurd h (fail_ne_ok _ _)
  | case3 pos magic hmagic hgood e herr =>
    rw [records, hmagic] at h
    simp only [if_neg hgood] at h
    split at h
    · cases h
    · rename_i hok
      rw [herr] at hok
      cases hok
  | case4 pos magic hmagic hgood record next hok ih =>
    rw [records, hmagic] at h
    simp only [if_neg hgood] at h
    split at h
    · cases h
    rename_i record' next' hok'
    rw [hok] at hok'
    obtain ⟨rfl, rfl⟩ : record = record' ∧ next = next' := by simpa using hok'
    have hnext := (parseRecord_next_gt hok).1
    obtain ⟨name, -, h⟩ := bind_eq_ok.mp h
    split at h
    · cases h
      exact hnext
    · obtain ⟨⟨rest, stop'⟩, hrest, h⟩ := bind_eq_ok.mp h
      have hstop := ih hrest
      cases h
      omega

theorem insertNewcArchive_gt {archive : List UInt8} {idx start stop : ℕ}
    {nodes nodes' : List Node} (h : insertNewcArchive archive idx nodes start = .ok (nodes', stop)) :
    start < stop := by
  unfold insertNewcArchive at h
  obtain ⟨⟨rs, pos⟩, hrecords, h⟩ := bind_eq_ok.mp h
  obtain ⟨nodes'', -, h⟩ := bind_eq_ok.mp h
  cases h
  exact records_gt hrecords

/-- What has been unpacked so far: the decompressed members, the tree, and what
is left of the decompressed total. -/
structure Unpacked where
  members : List (List UInt8)
  nodes : List Node
  budget : ℕ

/-- The distance from `pos` to the first byte that is not zero. -/
def zeroRun (archive : List UInt8) (pos : ℕ) : Option ℕ :=
  if pos ≤ archive.length then (archive.drop pos).findIdx? (· != 0) else none

theorem zeroRun_lt {archive : List UInt8} {pos n : ℕ} (h : zeroRun archive pos = some n) :
    pos + n < archive.length := by
  unfold zeroRun at h
  by_cases hpos : pos ≤ archive.length
  · rw [if_pos hpos] at h
    obtain ⟨hlt, -⟩ := List.findIdx?_eq_some_iff_getElem.mp h
    rw [List.length_drop] at hlt
    omega
  · rw [if_neg hpos] at h
    cases h

/-- The loop of `insert_chain` over buffer `idx`, which is `archive`: zeros
between archives are skipped, an archive starts 4-byte-aligned, a compressed
member is decoded and its archives folded in, and anything else is refused. The
buffers read so far never change, so the loop keeps its own. -/
def insertChain (dec : StreamDecoder) (idx : ℕ) (archive : List UInt8) (pos : ℕ) (s : Unpacked) :
    Outcome Unpacked :=
  match _hrun : zeroRun archive pos with
  | none => .ok s
  | some n =>
    match sniff (archive.drop (pos + n)) with
    | some codec =>
      -- the kernel doesn't decompress again inside a decompressed member
      if _hidx : idx ≠ 0 then fail (.corrupt "cpio_compressed_inside_compressed")
      else
        match _hdec : dec.decodeStream codec (archive.drop (pos + n)) s.budget with
        | .error e => .error e
        | .ok (out, used) => do
          let budget ← minus s.budget out.length
          let s ← insertChain dec (s.members.length + 1) out 0
            ⟨s.members ++ [out], s.nodes, budget⟩
          insertChain dec idx archive (pos + n + used) s
    | none =>
      let newc := crcMagic.isPrefixOf (archive.drop (pos + n)) ||
        newcMagic.isPrefixOf (archive.drop (pos + n))
      if !newc || (pos + n) % 4 != 0 then fail (.corrupt "cpio_junk_between_archives")
      else
        match _harc : insertNewcArchive archive idx s.nodes (pos + n) with
        | .error e => .error e
        | .ok (nodes, stop) => insertChain dec idx archive stop { s with nodes := nodes }
  termination_by ((if idx = 0 then 1 else 0 : ℕ), archive.length - pos)
  decreasing_by
    · simp only [ne_eq, Decidable.not_not] at _hidx
      subst _hidx
      exact Prod.Lex.left _ _ (by simp)
    · have hlt := zeroRun_lt _hrun
      have hused := dec.used_pos _hdec
      exact Prod.Lex.right _ (by omega)
    · have hlt := zeroRun_lt _hrun
      have hstop := insertNewcArchive_gt _harc
      exact Prod.Lex.right _ (by omega)

/-- A file of an odc or binary archive, as `cpio_reader` reports it. -/
structure ReaderEntry (archive : List UInt8) where
  name : Str
  mode : ℕ
  off : ℕ
  len : ℕ
  in_range : off + len ≤ archive.length

/-- The code the crate calls: stream decoders and the `cpio_reader` iterator. -/
structure Readers where
  dec : StreamDecoder
  iterFiles : (archive : List UInt8) → List (ReaderEntry archive)

/-- Fold a single odc or binary archive into the tree. -/
def insertSingle (readers : Readers) (archive : List UInt8) (nodes : List Node) :
    Outcome (List Node) :=
  (readers.iterFiles archive).foldlM (fun nodes entry =>
    insert nodes entry.name
      ⟨fileKind entry.mode, entry.mode &&& 0o7777, ⟨0, entry.off, entry.len⟩⟩) nodes

end Cpio

/-- A mounted archive: the input and each decompressed member, and the tree. -/
structure Cpio where
  buffers : List (List UInt8)
  nodes : List Cpio.Node

namespace Cpio

section Reading

variable {m : Type → Type} [Monad m] [MonadLiftT Outcome m] [Reads m]

def probe (src : Source) : m Bool :=
  if src.len < 6 then pure false
  else do
    let m ← src.readAt 0 6
    let ascii := m = newcMagic ∨ m = crcMagic ∨ m = [0x30, 0x37, 0x30, 0x37, 0x30, 0x37]
    let binary := m.take 2 = [0o161, 0o307] ∨ m.take 2 = [0o307, 0o161]
    return ascii ∨ binary

/-- `FoldFrontend::open`. -/
def mount (readers : Readers) (src : Source) : m Cpio := do
  let len ← checkedFullReadLen src.len
  let archive ← src.readAt 0 len
  let nodes := [Node.dir 0o755]
  if newcMagic.isPrefixOf archive ∨ crcMagic.isPrefixOf archive then
    let budget ← checkedFullReadLen maxBootFileBytes
    let s ← insertChain readers.dec 0 archive 0 ⟨[], nodes, budget⟩
    return ⟨archive :: s.members, s.nodes⟩
  else
    let nodes ← insertSingle readers archive nodes
    return ⟨[archive], nodes⟩

end Reading

section Methods

variable (c : Cpio)

def node (id : NodeId) : Outcome Node := okOr c.nodes[id]? .notFound

def bytes (span : Span) : Outcome (List UInt8) := do
  let buf ← unwrap c.buffers[span.buf]?
  unwrap (slice buf span.off span.len)

def lookup (dir : NodeId) (name : Str) : Outcome (Option NodeId) := do
  let node ← c.node dir
  if node.kind ≠ .directory then fail .notDirectory else return node.children[name]?

def readDir (dir : NodeId) : Outcome (List DirEntry) := do
  let node ← c.node dir
  if node.kind ≠ .directory then fail .notDirectory
  else node.children.toList.mapM fun (name, child) => do
    let n ← unwrap c.nodes[child]?
    return ⟨name, child, n.kind⟩

def metadata (id : NodeId) : Outcome Metadata := do
  let n ← c.node id
  return ⟨n.kind, if n.kind = .directory then 0 else n.data.len, n.mode⟩

def readAt (id : NodeId) (off : ℕ) (buf : List UInt8) : Outcome (ℕ × List UInt8) := do
  let n ← c.node id
  if n.kind = .directory then fail .isDirectory
  else do
    let data ← c.bytes n.data
    if off ≥ data.length then return (0, buf)
    else
      let count := min buf.length (data.length - off)
      let window ← unwrap (slice data off count)
      return (count, overwrite buf 0 window)

def readLink (id : NodeId) : Outcome (Option (List UInt8)) := do
  let n ← c.node id
  if n.kind ≠ .symlink then return none
  else do
    let target ← c.bytes n.data
    return some target

end Methods

/-- Nothing changes after the mount, so every method reads the state only. -/
def frontendIn {n : Type → Type} [Monad n] : FoldFrontendIn n Cpio where
  root _ := 0
  lookup dir name := do (← get).lookup dir name
  readDir dir := do (← get).readDir dir
  metadata id := do (← get).metadata id
  readAt id off buf := do (← get).readAt id off buf
  readLink id := do (← get).readLink id

def frontend : FoldFrontend Cpio := frontendIn

end Cpio

end Lamfold
