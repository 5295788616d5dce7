import Lamfold.ErofsListing
import Lamfold.ErofsStored

/-!
Whole EROFS volumes. A volume stores a graph of files when every file has an inode at its number,
with its data in some layout: the blocks of entries of a directory, the data of a file, or the
target of a link. The entries of a directory for itself and its parent are not in the graph.
-/
namespace Lamfold.Erofs

open Effects Bytes Utf8 FileGraph

variable {ρ ι : Type}

/-- The fields that a compact and an extended inode have at the same place. -/
structure InodeHead where
  format : UInt16
  xattrs : UInt16
  mode : UInt16
  links : UInt16
  blkaddr : UInt32

/-- The inode that stands at `off`. -/
def InodeHead.inode (head : InodeHead) (off size : ℕ) : Inode :=
  ⟨modeKind head.mode.toNat, size, head.mode.toNat, (head.format.toNat >>> 1) &&& 7,
    head.blkaddr.toNat, off + headLen head.format.toNat head.xattrs.toNat⟩

namespace InodeHead

variable (head : InodeHead)

def fields : List (ℕ × ℕ) :=
  [(2, head.format.toNat), (2, head.xattrs.toNat), (2, head.mode.toNat), (2, head.links.toNat)]

def compact (size mtime number : UInt32) (uid gid : UInt16) (reserved : UInt32) : List (ℕ × ℕ) :=
  head.fields ++ [(4, size.toNat), (4, mtime.toNat), (4, head.blkaddr.toNat), (4, number.toNat),
    (2, uid.toNat), (2, gid.toNat), (4, reserved.toNat)]

def extended (size : UInt64) (number uid gid : UInt32) (mtime : UInt64) (nsec links : UInt32)
    (reserved reserved' : UInt64) : List (ℕ × ℕ) :=
  head.fields ++ [(8, size.toNat), (4, head.blkaddr.toNat), (4, number.toNat), (4, uid.toNat),
    (4, gid.toNat), (8, mtime.toNat), (4, nsec.toNat), (4, links.toNat), (8, reserved.toNat),
    (8, reserved'.toNat)]

end InodeHead

/-- The bytes of an inode of `size` bytes of data. -/
inductive InodeBytes (head : InodeHead) : ℕ → List UInt8 → Prop
  | compact (size mtime number : UInt32) (uid gid : UInt16) (reserved : UInt32)
      (hformat : head.format.toNat &&& 1 = 0) :
      InodeBytes head size.toNat (encodeFields (head.compact size mtime number uid gid reserved))
  | extended (size : UInt64) (number uid gid : UInt32) (mtime : UInt64) (nsec links : UInt32)
      (reserved reserved' : UInt64) (hformat : head.format.toNat &&& 1 ≠ 0) :
      InodeBytes head size.toNat
        (encodeFields (head.extended size number uid gid mtime nsec links reserved reserved'))

/-- Such an inode stands at its number, and its xattrs behind it. -/
structure InodeAt (vol : Volume) (nid : NodeId) (head : InodeHead) (size : ℕ) : Prop where
  stored : ∃ bytes, InodeBytes head size bytes ∧
    slice vol.src.content (vol.metaOff + nid * 32) bytes.length = some bytes
  xattrs_lt : vol.metaOff + nid * 32 + headLen head.format.toNat head.xattrs.toNat < 2 ^ 64

theorem InodeBytes.front {head : InodeHead} {size : ℕ} {bytes : List UInt8}
    (h : InodeBytes head size bytes) : encodeFields head.fields <+: bytes := by
  cases h with
  | compact =>
    rw [InodeHead.compact, encodeFields_append]
    exact List.prefix_append _ _
  | extended =>
    rw [InodeHead.extended, encodeFields_append]
    exact List.prefix_append _ _

/-- An inode is read as it stands. -/
theorem InodeAt.read {vol : Volume} {nid : NodeId} {head : InodeHead} {size : ℕ}
    (h : InodeAt vol nid head size) :
    readInode vol nid = .ok (head.inode (vol.metaOff + nid * 32) size) := by
  obtain ⟨⟨bytes, hbytes, hslice⟩, hxattrs⟩ := h
  have hin := (slice_eq_some.mp hslice).1
  have hlen := vol.src.length_lt
  have hoff : inodeOffset vol nid = .ok (vol.metaOff + nid * 32) := by
    have hnid : checkedU64 (nid * 32) = some (nid * 32) := if_pos (by omega)
    have hsum : checkedU64 (vol.metaOff + nid * 32) = some _ := if_pos (by omega)
    unfold inodeOffset
    rw [hnid, Option.bind_some, hsum]
    rfl
  have hformat : ∀ {bytes : List UInt8}, encodeFields head.fields <+: bytes →
      leU16 bytes 0 = .ok head.format.toNat := fun hfront =>
    leAt_encodeFields (k := 0) (o := 0) hfront rfl head.format.toNat_lt rfl
  have hread : inodeBytes vol (vol.metaOff + nid * 32) = .ok bytes := by
    have hpart : ∀ off {n : ℕ}, off + n ≤ bytes.length →
        vol.src.readAt (vol.metaOff + nid * 32 + off) n = .ok ((bytes.drop off).take n) :=
      fun _ _ hle => Source.readAt_part hslice hle
    have hfirst : 32 ≤ bytes.length →
        vol.src.readAt (vol.metaOff + nid * 32) 32 = .ok (bytes.take 32) :=
      fun hle => hpart 0 (by omega)
    have hfront : 32 ≤ bytes.length → encodeFields head.fields <+: bytes.take 32 := by
      intro hle
      refine List.prefix_take_iff.mpr ⟨hbytes.front, ?_⟩
      rw [encodeFields_length]
      exact (by decide : 8 ≤ 32)
    unfold inodeBytes
    cases hbytes with
    | compact size mtime number uid gid reserved heven =>
      have hwidth : (encodeFields (head.compact size mtime number uid gid reserved)).length = 32 :=
        encodeFields_length _
      rw [hfirst (by omega), ok_bind, hformat (hfront (by omega)), lift_ok_bind,
        if_neg (not_not.mpr heven), ← hwidth, List.take_length]
      rfl
    | extended size number uid gid mtime nsec links reserved reserved' hodd =>
      have hwidth : (encodeFields (head.extended size number uid gid mtime nsec links reserved
          reserved')).length = 64 := encodeFields_length _
      have hnext : u64 (vol.metaOff + nid * 32 + 32) = .ok _ := fits_eq_ok.mpr ⟨by omega, rfl⟩
      rw [hfirst (by omega), ok_bind, hformat (hfront (by omega)), lift_ok_bind, if_pos hodd, hnext,
        lift_ok_bind, hpart _ (by omega), ok_bind, ← List.take_add, List.take_of_length_le (by omega)]
      rfl
  have hsize : sizeField head.format.toNat bytes = .ok size := by
    unfold sizeField
    cases hbytes with
    | compact size _ _ _ _ _ heven =>
      rw [if_neg (not_not.mpr heven)]
      exact leAt_encodeFields (k := 4) (o := 8) List.prefix_rfl rfl size.toNat_lt rfl
    | extended size _ _ _ _ _ _ _ _ hodd =>
      rw [if_pos hodd]
      exact leAt_encodeFields (k := 4) (o := 8) List.prefix_rfl rfl size.toNat_lt rfl
  have hblkaddr : leU32 bytes 16 = .ok head.blkaddr.toNat := by
    cases hbytes with
    | compact =>
      exact leAt_encodeFields (k := 6) (o := 16) List.prefix_rfl rfl head.blkaddr.toNat_lt rfl
    | extended =>
      exact leAt_encodeFields (k := 5) (o := 16) List.prefix_rfl rfl head.blkaddr.toNat_lt rfl
  have hinline : u64 (vol.metaOff + nid * 32 + headLen head.format.toNat head.xattrs.toNat) =
      .ok _ := fits_eq_ok.mpr ⟨hxattrs, rfl⟩
  rw [readInode_eq, hoff, ok_bind, hread, ok_bind, hformat hbytes.front, ok_bind, leU16,
    leAt_encodeFields (k := 1) (o := 2) hbytes.front rfl head.xattrs.toNat_lt rfl, ok_bind,
    leAt_encodeFields (k := 2) (o := 4) hbytes.front rfl head.mode.toNat_lt rfl, ok_bind, hsize,
    ok_bind, hblkaddr, ok_bind, hinline]
  rfl

/-- The superblock of a volume that needs nothing of the reader that it does not have. -/
structure Superblock where
  checksum : UInt32
  compat : UInt32
  blkszbits : UInt8
  extSlots : UInt8
  rootNid : UInt16
  inodes : UInt64
  buildTime : UInt64
  buildNsec : UInt32
  blocks : UInt32
  metaBlkaddr : UInt32
  xattrBlkaddr : UInt32
  uuid : ℕ
  name : ℕ
  incompat : UInt32
  comprAlgs : UInt16
  devSlot : UInt16
  dirBlkbits : UInt8
  prefixCount : UInt8
  prefixStart : UInt32
  filter : UInt8
  reserved : ℕ
  blkszbits_range : 9 ≤ blkszbits.toNat ∧ blkszbits.toNat ≤ 16
  known : incompat.toNat &&& (0xffffffff - incompatKnown) = 0
  no_metabox : incompat.toNat &&& incompatMetabox = 0
  no_48bit : incompat.toNat &&& incompat48bit = 0

namespace Superblock

variable (sb : Superblock)

def fields : List (ℕ × ℕ) :=
  [(4, magic), (4, sb.checksum.toNat), (4, sb.compat.toNat), (1, sb.blkszbits.toNat),
    (1, sb.extSlots.toNat), (2, sb.rootNid.toNat), (8, sb.inodes.toNat), (8, sb.buildTime.toNat),
    (4, sb.buildNsec.toNat), (4, sb.blocks.toNat), (4, sb.metaBlkaddr.toNat),
    (4, sb.xattrBlkaddr.toNat), (16, sb.uuid), (16, sb.name), (4, sb.incompat.toNat),
    (2, sb.comprAlgs.toNat), (2, 0), (2, sb.devSlot.toNat), (1, sb.dirBlkbits.toNat),
    (1, sb.prefixCount.toNat), (4, sb.prefixStart.toNat), (8, 0), (1, sb.filter.toNat),
    (23, sb.reserved)]

/-- What the mount keeps of it. -/
def volume (src : Source) : Volume where
  src := src
  blkszbits := sb.blkszbits.toNat
  blkszbits_range := sb.blkszbits_range
  lz4ZeroPadding := sb.incompat.toNat &&& incompatLz40padding ≠ 0
  metaOff := sb.metaBlkaddr.toNat * 2 ^ sb.blkszbits.toNat
  rootNid := sb.rootNid.toNat
  lzmaDictSize := (parseLzmaCfg src (superOffset + 128 + sb.extSlots.toNat * 16)).toOption.join
  comprCfgsOff := superOffset + 128 + sb.extSlots.toNat * 16

theorem width : fieldsWidth sb.fields = 128 := by
  simp only [fields, fieldsWidth]

/-- A field is read at its place. -/
theorem leAt_field {k o width n : ℕ} {what : String} (hk : sb.fields[k]? = some (width, n))
    (hn : n < 256 ^ width) (ho : fieldsWidth (sb.fields.take k) = o) :
    leAt width what (encodeFields sb.fields) o = .ok n :=
  leAt_encodeFields List.prefix_rfl hk hn ho

theorem byte_field {k o : ℕ} {b : UInt8} (hk : sb.fields[k]? = some (1, b.toNat))
    (ho : fieldsWidth (sb.fields.take k) = o) : (encodeFields sb.fields).getD o 0 = b := by
  rw [List.getD_eq_getElem?_getD, byte_encodeFields List.prefix_rfl hk ho]
  rfl

theorem refuse : refuseUnsupportedFeatures (encodeFields sb.fields) sb.incompat.toNat = .ok () := by
  have hzero : (0 : ℕ) < 256 ^ 2 := by decide
  have hzero' : (0 : ℕ) < 256 ^ 8 := by decide
  have hextra : leU16 (encodeFields sb.fields) 86 = .ok 0 :=
    sb.leAt_field (k := 16) rfl hzero (by
      simp only [fields, List.take_succ_cons, List.take_zero, fieldsWidth])
  have hpacked : leU64 (encodeFields sb.fields) 96 = .ok 0 :=
    sb.leAt_field (k := 21) rfl hzero' (by
      simp only [fields, List.take_succ_cons, List.take_zero, fieldsWidth])
  unfold refuseUnsupportedFeatures
  rw [if_neg (not_not.mpr sb.known), if_neg (not_not.mpr sb.no_metabox),
    if_neg (not_not.mpr sb.no_48bit), hextra, ok_bind, if_neg (not_not.mpr rfl), hpacked, ok_bind]
  rfl

end Superblock

section Volumes

variable (codecs : Codecs ρ) (src : Source) (g : Files ι) (place : ι → NodeId)

/-- An entry of a directory is written with the number and the type of its file. -/
structure EntryOf (entry : Str × ι) (e : Entry) : Prop where
  name : e.name = entry.1
  nid : e.nid = place entry.2
  kind : fileTypeKind e.fileType = g.kind entry.2

/-- An inode that stands for the item, with its data. -/
inductive InodeOf (vol : Volume) (inode : Inode) : Item Str (List UInt8) ι → Prop
  | dir {entries : List (Str × ι)} (blocks : List (List Entry)) (last : List Entry)
      (hkind : inode.kind = .directory)
      (hblocks : ∀ entries ∈ blocks, (blockContent entries).length ≤ vol.blockSize)
      (hlast : (blockContent last).length ≤ vol.blockSize)
      (hentries : List.Forall₂ (EntryOf g place) entries
        ((blocks.flatten ++ last).filter Entry.Listed))
      (hsize : inode.size = (directoryData vol.blockSize blocks last).length)
      (hcap : inode.size ≤ maxBootFileBytes)
      (hstored : DataStored codecs vol inode (directoryData vol.blockSize blocks last)) :
      InodeOf vol inode (.dir entries)
  | file {data : List UInt8} (hkind : inode.kind = .regular) (hsize : inode.size = data.length)
      (hlt : data.length < 2 ^ 63) (hstored : DataStored codecs vol inode data) :
      InodeOf vol inode (.file data)
  | link {target : List UInt8} (hkind : inode.kind = .symlink) (hsize : inode.size = target.length)
      (hcap : inode.size ≤ maxBootFileBytes) (hstored : DataStored codecs vol inode target) :
      InodeOf vol inode (.link target)
  | special (hkind : inode.kind = .other) : InodeOf vol inode .special

/-- The volume of a superblock stores the files, each with its inode at its number. -/
structure Stores (sb : Superblock) : Prop where
  superblock : slice src.content superOffset 128 = some (encodeFields sb.fields)
  root : place g.root = sb.rootNid.toNat
  files : ∀ i, ∃ head size, InodeAt (sb.volume src) (place i) head size ∧
    InodeOf codecs g place (sb.volume src)
      (head.inode ((sb.volume src).metaOff + place i * 32) size) (g.item i)

variable {codecs src g place} {sb : Superblock} {vol : Volume} {inode : Inode} {i : ι}
  {fs : Erofs}

theorem openVolume_superblock
    (h : slice src.content superOffset 128 = some (encodeFields sb.fields)) :
    openVolume src = .ok (sb.volume src) := by
  have hin : superOffset + 128 ≤ src.len := (slice_eq_some.mp h).1
  have hmagic : leU32 (encodeFields sb.fields) 0 = .ok magic :=
    sb.leAt_field (k := 0) rfl (by decide) rfl
  have hbits : (encodeFields sb.fields).getD 12 0 = sb.blkszbits :=
    sb.byte_field (k := 3) rfl (by
      simp only [Superblock.fields, List.take_succ_cons, List.take_zero, fieldsWidth])
  have hslots : (encodeFields sb.fields).getD 13 0 = sb.extSlots :=
    sb.byte_field (k := 4) rfl (by
      simp only [Superblock.fields, List.take_succ_cons, List.take_zero, fieldsWidth])
  have hincompat : leU32 (encodeFields sb.fields) 80 = .ok sb.incompat.toNat :=
    sb.leAt_field (k := 14) rfl sb.incompat.toNat_lt (by
      simp only [Superblock.fields, List.take_succ_cons, List.take_zero, fieldsWidth])
  have hroot : leU16 (encodeFields sb.fields) 14 = .ok sb.rootNid.toNat :=
    sb.leAt_field (k := 5) rfl sb.rootNid.toNat_lt (by
      simp only [Superblock.fields, List.take_succ_cons, List.take_zero, fieldsWidth])
  have hmeta : leU32 (encodeFields sb.fields) 40 = .ok sb.metaBlkaddr.toNat :=
    sb.leAt_field (k := 10) rfl sb.metaBlkaddr.toNat_lt (by
      simp only [Superblock.fields, List.take_succ_cons, List.take_zero, fieldsWidth])
  have hbelow : sb.metaBlkaddr.toNat * (sb.volume src).blockSize < 2 ^ 48 :=
    blocks_lt sb.metaBlkaddr.toNat_lt
  have hoff : u64 (sb.metaBlkaddr.toNat * 2 ^ sb.blkszbits.toNat) = .ok _ :=
    fits_eq_ok.mpr ⟨Nat.lt_trans hbelow (by decide), rfl⟩
  have hfound : ¬(magic ≠ magic) := fun hne => hne rfl
  obtain ⟨window, hwindow⟩ := parseLzmaCfg_ok src (superOffset + 128 + sb.extSlots.toNat * 16)
  unfold openVolume
  rw [if_neg (Nat.not_lt.mpr hin), Source.readAt_eq_ok.mpr h, ok_bind, hmagic, lift_ok_bind,
    if_neg hfound, hbits, hslots]
  dsimp only
  rw [dif_pos sb.blkszbits_range, hincompat, lift_ok_bind, sb.refuse, lift_ok_bind, hroot,
    lift_ok_bind, hmeta, lift_ok_bind, hoff, lift_ok_bind, hwindow, Superblock.volume, hwindow]
  rfl

/-- The entries of a directory are listed. -/
theorem listsEntries {entries : List (Str × ι)} {written : List Entry}
    (h : List.Forall₂ (EntryOf g place) entries (written.filter Entry.Listed)) :
    List.Forall₂ (ListsEntry g fun node i => node = place i) entries (listing written) := by
  unfold listing
  refine List.forall₂_map_right_iff.mpr (h.imp fun entry e hentry => ?_)
  exact ⟨hentry.name, hentry.nid, hentry.kind⟩

theorem InodeOf.kind_eq (h : InodeOf codecs g place vol inode (g.item i)) :
    inode.kind = g.kind i := by
  unfold Files.kind
  generalize g.item i = item at h
  cases h with
  | dir _ _ hkind => exact hkind
  | file hkind => exact hkind
  | link hkind => exact hkind
  | special hkind => exact hkind

/-- A call that starts by parsing an inode goes on with it. -/
theorem exec_parsed {α : Type} {node : NodeId} (hfs : Holds codecs vol fs)
    (hread : readInode vol node = .ok inode) (f : Inode → Method Erofs α) :
    ∃ t, exec (parseInode node >>= fun _ => Erofs.inode node >>= f) fs = exec (f inode) t ∧
      HoldsInode codecs vol node inode t := by
  obtain ⟨t, hrun, -, hcached⟩ := exec_parseInode hfs node
  rw [hread] at hrun
  have ht := hcached inode hread
  refine ⟨t, ?_, ht⟩
  rw [exec_bind_of_ok hrun, exec_bind_of_ok (exec_inode_cached ht)]

/-- Data within the cap is read whole. -/
theorem DataStored.whole {data : List UInt8} (h : DataStored codecs vol inode data)
    (hinode : inode.Bounded) (hsize : inode.size = data.length) (hcap : inode.size ≤ maxBootFileBytes) :
    Erofs.inodeData codecs vol inode 0 (List.replicate inode.size 0) = .ok (data.length, data) := by
  have hmax : maxBootFileBytes = 2 ^ 29 := rfl
  have hbuf : (List.replicate inode.size (0 : UInt8)).length < bufferBound := by
    rw [List.length_replicate]
    exact Nat.lt_of_le_of_lt hcap (by decide)
  rw [h.inodeData hinode hsize (by omega) hbuf, hsize, Serves.windowOf_whole]

namespace Stores

variable {verifier : Verifier} (h : Stores codecs src g place sb)

include h

theorem readInode (i : ι) : ∃ inode, Erofs.readInode (sb.volume src) (place i) = .ok inode ∧
    InodeOf codecs g place (sb.volume src) inode (g.item i) := by
  obtain ⟨head, size, hat, hof⟩ := h.files i
  exact ⟨_, hat.read, hof⟩

theorem readDir (hfs : Holds codecs (sb.volume src) fs) {entries : List (Str × ι)}
    (hitem : g.item i = .dir entries) :
    ∃ es, (exec (Erofs.readDir codecs (place i)) fs).1 = .ok es ∧
      List.Forall₂ (ListsEntry g fun node i => node = place i) entries es := by
  obtain ⟨inode, hread, hof⟩ := h.readInode i
  rw [hitem] at hof
  cases hof with
  | dir blocks last hkind hblocks hlast hentries hsize hcap hstored =>
    have hdata := hstored.whole (readInode_bounded hread) hsize hcap
    refine ⟨listing (blocks.flatten ++ last), ?_, listsEntries hentries⟩
    rw [readDir_run hfs hread hkind hcap hdata]
    exact parseDirData_directoryData _ hblocks hlast

theorem readDir_other (hfs : Holds codecs (sb.volume src) fs) (hother : g.kind i ≠ .directory) :
    (exec (Erofs.readDir codecs (place i)) fs).1 = .error (.err .notDirectory) := by
  obtain ⟨inode, hread, hof⟩ := h.readInode i
  have hkind : inode.kind ≠ .directory := hof.kind_eq ▸ hother
  unfold Erofs.readDir DataPath.readDir dataPath
  obtain ⟨t, hrun, -⟩ := exec_parsed hfs hread _
  rw [hrun, if_pos hkind]
  rfl

theorem metadata (hfs : Holds codecs (sb.volume src) fs) :
    ∃ md, (exec (Erofs.metadata (place i)) fs).1 = .ok md ∧ Describes g i md := by
  obtain ⟨inode, hread, hof⟩ := h.readInode i
  obtain ⟨t, hrun, -⟩ := exec_parsed hfs hread fun inode =>
    pure (⟨inode.kind, inode.size, inode.mode &&& 0o7777⟩ : Metadata)
  refine ⟨⟨inode.kind, inode.size, inode.mode &&& 0o7777⟩, ?_, hof.kind_eq, ?_⟩
  · unfold Erofs.metadata
    rw [hrun]
    rfl
  · intro data hitem
    rw [hitem] at hof
    cases hof with
    | file _ hsize => exact hsize

theorem readLink (hfs : Holds codecs (sb.volume src) fs) {target : List UInt8}
    (hitem : g.item i = .link target) :
    (exec (Erofs.readLink codecs (place i)) fs).1 = .ok (some target) := by
  obtain ⟨inode, hread, hof⟩ := h.readInode i
  rw [hitem] at hof
  cases hof with
  | link hkind hsize hcap hstored =>
    have hlen : checkedFullReadLen inode.size = .ok inode.size :=
      checkedFullReadLen_eq_ok.mpr ⟨hcap, rfl⟩
    unfold Erofs.readLink DataPath.readLink dataPath
    obtain ⟨t, hrun, ht⟩ := exec_parsed hfs hread _
    have hdata := readInodeData_run ht 0 (List.replicate inode.size 0)
    rw [hstored.whole (readInode_bounded hread) hsize hcap] at hdata
    rw [hrun, if_neg (not_not.mpr hkind),
      exec_bind_of_ok ((exec_lift _ _).trans (congrArg (·, _) hlen)),
      exec_bind_of_ok (Prod.ext hdata rfl)]
    rfl

/-- Every method answers as the graph does, when the verifier accepts what is stored. -/
theorem serves (haccepts : ∀ i data, g.item i = .file data →
      Accepts verifier (place i) (sb.volume src).blockSize data) :
    Serves (frontend codecs verifier) g (Holds codecs (sb.volume src)) fun _ node i =>
      node = place i where
  later c s hs := ⟨((cacheKept_holds codecs (sb.volume src)).frontend verifier).after c hs,
    fun hat => hat⟩
  root {s} hs := by
    change s.vol.rootNid = place g.root
    rw [hs.vol_eq, h.root]
    rfl
  metadata {s node i} hs hnode := by
    subst hnode
    exact h.metadata hs
  lookup {s node i} name hs hnode hdir := by
    subst hnode
    obtain ⟨entries, hitem⟩ := Files.kind_directory.mp hdir
    obtain ⟨es, hes, hlists⟩ := h.readDir hs hitem
    exact ⟨entryNamed es name, lookup_run name hes, ListsEntry.entryNamed hlists hitem name⟩
  lookup_other {s node i} name child hs hnode hother hlookup := by
    subst hnode
    have hread := h.readDir_other hs hother
    change (exec (Erofs.readDir codecs (place i) >>= fun entries => pure (entryNamed entries name))
      s).1 = _ at hlookup
    rw [exec_bind_of_error (Prod.ext hread rfl)] at hlookup
    cases hlookup
  readDir {s node i entries} hs hnode hitem := by
    subst hnode
    exact h.readDir hs hitem
  readAt {s node i data} off buf hs hnode hitem hbuf := by
    subst hnode
    obtain ⟨inode, hread, hof⟩ := h.readInode i
    have haccepts := haccepts i data hitem
    rw [hitem] at hof
    cases hof with
    | file hkind hsize hlt hstored =>
      refine readAt_stored hs hread ?_ hstored hsize hlt haccepts hbuf
      rw [hkind]
      exact FileKind.noConfusion
  readLink {s node i target} hs hnode hitem := by
    subst hnode
    exact h.readLink hs hitem

theorem mount : ∃ fs, Erofs.mount src = .ok fs ∧ Holds codecs (sb.volume src) fs := by
  obtain ⟨inode, hread, -⟩ := h.readInode g.root
  rw [h.root] at hread
  have hmount := mount_eq_ok (openVolume_superblock h.superblock) hread
  exact ⟨_, hmount, mount_holds hmount⟩

end Stores

/-- A volume that stores files is opened, and under a verifier that accepts their blocks it
presents them. -/
theorem erofs_presents {verifier : Verifier} (h : Stores codecs src g place sb)
    (haccepts : ∀ i data, g.item i = .file data →
      Accepts verifier (place i) (sb.volume src).blockSize data) :
    ∃ fs, mount src = .ok fs ∧ Presents (frontend codecs verifier) g fs := by
  obtain ⟨fs, hmount, hholds⟩ := h.mount
  exact ⟨fs, hmount, (h.serves haccepts).presents hholds⟩

end Volumes

theorem letterBits_range : 9 ≤ (9 : UInt8).toNat ∧ (9 : UInt8).toNat ≤ 16 := by decide

/-- Big pclusters and a compact index. -/
theorem letterIncompat_ok : (3 : UInt32).toNat &&& (0xffffffff - incompatKnown) = 0 ∧
    (3 : UInt32).toNat &&& incompatMetabox = 0 ∧ (3 : UInt32).toNat &&& incompat48bit = 0 := by
  decide

def letterSuperblock : Superblock where
  checksum := 0
  compat := 0
  blkszbits := 9
  extSlots := 0
  rootNid := 4
  inodes := 3
  buildTime := 0
  buildNsec := 0
  blocks := 5
  metaBlkaddr := 2
  xattrBlkaddr := 0
  uuid := 0
  name := 0
  incompat := 3
  comprAlgs := 0
  devSlot := 0
  dirBlkbits := 0
  prefixCount := 0
  prefixStart := 0
  filter := 0
  reserved := 0
  blkszbits_range := letterBits_range
  known := letterIncompat_ok.1
  no_metabox := letterIncompat_ok.2.1
  no_48bit := letterIncompat_ok.2.2

theorem dotDot_name : ([0x2E, 0x2E] : Str) ≠ [] ∧ isUtf8 [0x2E, 0x2E] = true ∧
    0 ∉ ([0x2E, 0x2E] : Str) := by decide

theorem dot_name : ([0x2E] : Str) ≠ [] ∧ isUtf8 [0x2E] = true ∧ 0 ∉ ([0x2E] : Str) := by decide

theorem a_name : ([0x61] : Str) ≠ [] ∧ isUtf8 [0x61] = true ∧ 0 ∉ ([0x61] : Str) := by decide

theorem b_name : ([0x62] : Str) ≠ [] ∧ isUtf8 [0x62] = true ∧ 0 ∉ ([0x62] : Str) := by decide

/-- An entry with a name. -/
def entryOf (nid : UInt64) (fileType : UInt8) (name : Str)
    (hname : name ≠ [] ∧ isUtf8 name = true ∧ 0 ∉ name) : Entry where
  nid := nid.toNat
  nid_lt := nid.toNat_lt
  fileType := fileType
  reserved := 0
  name := name
  name_ne := hname.1
  name_utf8 := hname.2.1
  no_nul := hname.2.2

def letterEntries : List Entry :=
  [entryOf 4 2 [0x2E] dot_name, entryOf 4 2 [0x2E, 0x2E] dotDot_name, entryOf 7 1 [0x61] a_name,
    entryOf 9 7 [0x62] b_name]

/-- A file `a` of 1024 bytes in a pcluster of two blocks, and a link `b` to it. -/
def letterFiles : Files Few where
  root := .root
  item
    | .root => .dir [([0x61], .first), ([0x62], .second)]
    | .first => .file (List.replicate 1024 0x41)
    | .second => .link [0x61]

def letterPlace : Few → NodeId
  | .root => 4
  | .first => 7
  | .second => 9

/-- Its entries follow the inode. -/
def letterDir : InodeHead := ⟨4, 0, 0x41ED, 2, 0xFFFFFFFF⟩

def letterFile : InodeHead := ⟨6, 0, 0x81A4, 1, 2⟩

def letterLink : InodeHead := ⟨4, 0, 0xA1FF, 1, 0xFFFFFFFF⟩

def letterSource : Source where
  content := List.replicate 1024 0 ++ encodeFields letterSuperblock.fields ++
    encodeFields (letterDir.compact 53 0 1 0 0 0) ++ blockContent letterEntries ++
    List.replicate 11 0 ++ encodeFields (letterFile.compact 1024 0 2 0 0 0) ++
    [0, 0, 0, 0, 3, 0, 0, 0] ++ encodeIndex 1288 0 (fun _ => 3) (allCodes twoBlocks) ++
    List.replicate 16 0 ++ encodeFields (letterLink.compact 1 0 3 0 0 0) ++ [0x61] ++
    List.replicate 191 0 ++ List.replicate 1024 0x41
  length_lt := by decide +kernel

theorem letterFile_compact : CompactFile (letterSuperblock.volume letterSource)
    (letterFile.inode 1248 1024) ⟨3, 0, 0⟩ 1280 512 0 (fun _ => 3) 3 twoBlocks where
  header_off := by decide +kernel
  header := by decide +kernel
  whole := rfl
  supported := rfl
  lcsize_eq := rfl
  lcsize_le := show 512 ≤ 2 ^ 12 by decide
  lclusters := show divCeil 1024 512 = 2 by decide
  layout := rfl
  compacted := by decide
  written := by
    refine ⟨⟨9, by decide, by decide, rfl⟩, by decide, ?_, by decide, ?_, ?_, rfl, ?_⟩
    · intro p hp
      obtain rfl := Option.some.inj hp
      rfl
    · intro head hhead
      obtain rfl := List.mem_singleton.mp hhead
      show 3 < 2 ^ 32
      decide
    · intro g
      decide
    · decide +kernel

theorem letterFile_packed : Packed noStreams (letterSuperblock.volume letterSource) ⟨3, 0, 0⟩ []
    (headsOf 0 3 twoBlocks) (List.replicate 1024 0x41) := by
  have hspan : SpanAt (letterSuperblock.volume letterSource) ⟨0, .plain, 3, 2⟩
      (List.replicate 1024 0x41) :=
    ⟨List.cons_ne_nil _ _, by decide, by decide +kernel, by decide +kernel⟩
  have hone : Packed noStreams (letterSuperblock.volume letterSource) ⟨3, 0, 0⟩ []
      (headsOf 0 3 twoBlocks) (List.replicate 1024 0x41 ++ []) :=
    .cons rfl (List.cons_ne_nil _ _) hspan (by decide +kernel) .nil
  rwa [List.append_nil] at hone

theorem stores_letterSource :
    Stores noStreams letterSource letterFiles letterPlace letterSuperblock where
  superblock := by decide +kernel
  root := rfl
  files i := by
    match i with
    | .root =>
      refine ⟨letterDir, 53, ⟨⟨_, .compact 53 0 1 0 0 0 (by decide), by decide +kernel⟩,
        by decide +kernel⟩, ?_⟩
      have hstored : DataStored noStreams (letterSuperblock.volume letterSource)
          (letterDir.inode 1152 53) ([] ++ blockContent letterEntries) :=
        .inline rfl (by decide +kernel) (fun hne => absurd rfl hne) fun _ => by decide +kernel
      refine .dir [] letterEntries rfl (List.forall_mem_nil _) (by decide +kernel) ?_
        (by decide +kernel) (by decide +kernel) hstored
      exact .cons ⟨rfl, rfl, rfl⟩ (.cons ⟨rfl, rfl, rfl⟩ .nil)
    | .first =>
      refine ⟨letterFile, 1024, ⟨⟨_, .compact 1024 0 2 0 0 0 (by decide), by decide +kernel⟩,
        by decide +kernel⟩, ?_⟩
      have hlen : (List.replicate 1024 (0x41 : UInt8)).length = 1024 := List.length_replicate
      refine .file rfl hlen.symm (by rw [hlen]; decide) (.packed (.compact letterFile_compact) ?_
        letterFile_packed)
      rw [hlen]
      decide
    | .second =>
      refine ⟨letterLink, 1, ⟨⟨_, .compact 1 0 3 0 0 0 (by decide), by decide +kernel⟩,
        by decide +kernel⟩, ?_⟩
      have hstored : DataStored noStreams (letterSuperblock.volume letterSource)
          (letterLink.inode 1312 1) ([] ++ [0x61]) :=
        .inline rfl (by decide +kernel) (fun hne => absurd rfl hne) fun _ => by decide +kernel
      exact .link rfl rfl (by decide) hstored

theorem erofs_presents_letterSource : ∃ fs, mount letterSource = .ok fs ∧
    Presents (frontend noStreams noVerifier) letterFiles fs :=
  erofs_presents stores_letterSource fun _ _ _ _ _ _ => rfl

end Lamfold.Erofs
