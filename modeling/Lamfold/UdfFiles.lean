import Lamfold.StableNodes
import Lamfold.TableFiles
import Lamfold.UdfContent
import Lamfold.UdfListing

/-!
UDF volumes that store a graph of files, and the graph that they present. Descriptors lead from
sector 256 to the File Entry of the root. The data of a file stands in its entry or in extents,
and a directory's is a list of File Identifier Descriptors.
-/
namespace Lamfold.Udf

open Effects Bytes Utf8 FileGraph

/-- A block begins with these bytes. -/
def BlockAt (src : Source) (blockSize lba : ℕ) (bytes : List UInt8) : Prop :=
  lba < 2 ^ 32 ∧ ∃ block, slice src.content (lba * blockSize) blockSize = some block ∧
    bytes <+: block

theorem BlockAt.readBlock {src : Source} {blockSize lba : ℕ} {bytes : List UInt8}
    (h : BlockAt src blockSize lba bytes) :
    ∃ block, Udf.readBlock src blockSize lba = .ok block ∧ bytes <+: block := by
  obtain ⟨-, block, hslice, hbytes⟩ := h
  have hin : lba * blockSize + blockSize ≤ src.len := (slice_eq_some.mp hslice).1
  have hlen : src.len < 2 ^ 64 := src.length_lt
  have hoff : u64 (lba * blockSize) = .ok _ := fits_eq_ok.mpr ⟨by omega, rfl⟩
  have hstop : u64 (lba * blockSize + blockSize) = .ok _ := fits_eq_ok.mpr ⟨by omega, rfl⟩
  refine ⟨block, ?_, hbytes⟩
  unfold Udf.readBlock
  rw [hoff, lift_ok_bind, hstop, lift_ok_bind, if_neg (Nat.not_lt.mpr hin)]
  exact Source.readAt_eq_ok.mpr hslice

/-- A short_ad, or a long_ad where its implementation use follows. Only an empty extent may be
of the type of a continuation. -/
structure AllocDesc where
  etype : ℕ
  len : ℕ
  block : UInt32
  use : List UInt8
  etype_lt : etype < 4
  len_lt : len < 2 ^ 30
  no_continuation : len ≠ 0 → etype ≠ 3

namespace AllocDesc

variable (ad : AllocDesc) (partitionStart : ℕ)

def raw : ℕ := ad.etype * 2 ^ 30 + ad.len

def encode : List UInt8 := leBytes 4 ad.raw ++ leBytes 4 ad.block.toNat ++ ad.use

/-- The extent that it describes, unless it is empty. -/
def extent : Option Extent :=
  if ad.len = 0 then none
  else some ⟨if ad.etype = 0 then some (partitionStart + ad.block.toNat) else none, ad.len⟩

theorem raw_lt : ad.raw < 2 ^ 32 := by
  have hetype := ad.etype_lt
  have hlen := ad.len_lt
  unfold raw
  omega

theorem raw_len : ad.raw &&& 0x3FFFFFFF = ad.len := by
  have hlen := ad.len_lt
  have hmask : 0x3FFFFFFF = 2 ^ 30 - 1 := by norm_num
  rw [hmask, Nat.and_two_pow_sub_one_eq_mod, raw, Nat.mul_add_mod_self_right, Nat.mod_eq_of_lt hlen]

theorem raw_etype : ad.raw >>> 30 = ad.etype := by
  have hlen := ad.len_lt
  rw [Nat.shiftRight_eq_div_pow, raw]
  omega

theorem parseExtent_encode (hfits : ad.len ≠ 0 → partitionStart + ad.block.toNat < 2 ^ 32) :
    parseExtent partitionStart ad.encode = .ok (ad.extent partitionStart) := by
  have hraw : leNat (ad.encode.take 4) = ad.raw := by
    unfold encode
    rw [List.append_assoc, List.take_left' (leBytes_length ..), leNat_leBytes ad.raw_lt]
  have hblock : leNat ((ad.encode.drop 4).take 4) = ad.block.toNat := by
    unfold encode
    rw [List.append_assoc, List.drop_left' (leBytes_length ..), List.take_left' (leBytes_length ..),
      leNat_leBytes ad.block.toNat_lt]
  unfold parseExtent extent
  dsimp only
  rw [hraw, hblock, ad.raw_len, ad.raw_etype]
  by_cases hempty : ad.len = 0
  · rw [if_pos hempty, if_pos hempty]
    rfl
  · have hlba : u32 (partitionStart + ad.block.toNat) = .ok _ :=
      fits_eq_ok.mpr ⟨hfits hempty, rfl⟩
    rw [if_neg hempty, if_neg hempty, if_neg (ad.no_continuation hempty), hlba]
    rfl

end AllocDesc

/-- Descriptors of one length are read as their extents. -/
theorem parseExtents_encode {partitionStart adOff stride : ℕ} {buf : List UInt8}
    {ads : List AllocDesc} (hstride : 0 < stride)
    (hlen : ∀ ad ∈ ads, ad.encode.length = stride)
    (hfits : ∀ ad ∈ ads, ad.len ≠ 0 → partitionStart + ad.block.toNat < 2 ^ 32)
    (hslice : slice buf adOff (ads.flatMap AllocDesc.encode).length =
      some (ads.flatMap AllocDesc.encode)) :
    parseExtents partitionStart buf adOff (ads.flatMap AllocDesc.encode).length stride =
      .ok (.extents (ads.filterMap (AllocDesc.extent · partitionStart))) := by
  have hchunks : ∀ bytes ∈ ads.map AllocDesc.encode, bytes.length = stride := by
    simpa using hlen
  have hparse : ads.mapM (parseExtent partitionStart ∘ AllocDesc.encode) =
      .ok (ads.map (AllocDesc.extent · partitionStart)) :=
    mapM_eq_ok_map fun ad had => by
      rw [Function.comp_apply, ad.parseExtent_encode partitionStart (hfits ad had)]
  unfold parseExtents
  rw [hslice, okOr, ok_bind, List.flatMap_def, chunksExact_flatten hstride hchunks, List.mapM_map,
    hparse, ok_bind, List.filterMap_map]
  rfl

/-- A File Entry or an Extended File Entry, up to its allocation descriptors. What is not read
of it are numbers of the width between the fields that are. -/
structure EntryHead where
  extended : Bool
  icbTag : ℕ
  fileType : UInt8
  parent : ℕ
  flags : UInt16
  owner : ℕ
  infoLen : UInt64
  stamps : ℕ
  attributes : List UInt8
  attributes_lt : attributes.length < 2 ^ 32

namespace EntryHead

variable (head : EntryHead)

def fields (lAd : ℕ) : List (ℕ × ℕ) :=
  [(2, if head.extended then tagExtendedFileEntry else tagFileEntry), (25, head.icbTag),
    (1, head.fileType.toNat), (6, head.parent), (2, head.flags.toNat), (20, head.owner),
    (8, head.infoLen.toNat), (if head.extended then 144 else 104, head.stamps),
    (4, head.attributes.length), (4, lAd)]

/-- The entry, with `area` behind its extended attributes. -/
def encode (area : List UInt8) : List UInt8 :=
  encodeFields (head.fields area.length) ++ head.attributes ++ area

end EntryHead

/-- The area of an entry holds its data, or describes the extents of it. -/
inductive AreaOf (partitionStart : ℕ) (head : EntryHead) : List UInt8 → FileData → Prop
  | inline {area : List UInt8} (htype : head.flags.toNat &&& 0x7 = 3)
      (hsize : head.infoLen.toNat = area.length) (hcap : area.length ≤ maxBootFileBytes) :
      AreaOf partitionStart head area (.inline area)
  | short {ads : List AllocDesc} (htype : head.flags.toNat &&& 0x7 = 0)
      (huse : ∀ ad ∈ ads, ad.use.length = 0)
      (hfits : ∀ ad ∈ ads, ad.len ≠ 0 → partitionStart + ad.block.toNat < 2 ^ 32) :
      AreaOf partitionStart head (ads.flatMap AllocDesc.encode)
        (.extents (ads.filterMap (AllocDesc.extent · partitionStart)))
  | long {ads : List AllocDesc} (htype : head.flags.toNat &&& 0x7 = 1)
      (huse : ∀ ad ∈ ads, ad.use.length = 8)
      (hfits : ∀ ad ∈ ads, ad.len ≠ 0 → partitionStart + ad.block.toNat < 2 ^ 32) :
      AreaOf partitionStart head (ads.flatMap AllocDesc.encode)
        (.extents (ads.filterMap (AllocDesc.extent · partitionStart)))

variable {partitionStart : ℕ} {head : EntryHead} {area : List UInt8} {data : FileData}

/-- The data of an entry, from the area where it is. -/
theorem AreaOf.fileData {adOff : ℕ} {buf : List UInt8}
    (h : AreaOf partitionStart head area data) (hend : adOff + area.length < 2 ^ 64)
    (hslice : slice buf adOff area.length = some area) :
    Udf.fileData partitionStart buf (head.flags.toNat &&& 0x7) adOff area.length
      head.infoLen.toNat = .ok data := by
  have hads : ∀ {ads : List AllocDesc} {n : ℕ}, (∀ ad ∈ ads, ad.use.length = n) →
      ∀ ad ∈ ads, ad.encode.length = 8 + n := by
    intro ads n huse ad had
    unfold AllocDesc.encode
    rw [List.length_append, List.length_append, leBytes_length, leBytes_length, huse ad had]
  unfold Udf.fileData
  cases h with
  | inline htype hsize hcap =>
    have hstop : checkedU64 (adOff + area.length) = some _ := if_pos hend
    have hrange : sliceRange buf adOff (adOff + area.length) = some area := by
      refine sliceRange_eq_some.mpr ⟨Nat.le_add_right .., (slice_eq_some.mp hslice).1, ?_⟩
      rw [Nat.add_sub_cancel_left]
      exact (slice_eq_some.mp hslice).2
    unfold inlineData
    rw [if_pos htype, hsize, checkedFullReadLen_eq_ok.mpr ⟨hcap, rfl⟩, ok_bind, hstop, okOr, ok_bind,
      hrange]
    rfl
  | short htype huse hfits =>
    rw [htype, if_neg (by decide), if_pos rfl]
    exact parseExtents_encode (by decide) (hads huse) hfits hslice
  | long htype huse hfits =>
    rw [htype, if_neg (by decide), if_neg (by decide), if_pos rfl]
    exact parseExtents_encode (by decide) (hads huse) hfits hslice

theorem EntryHead.parseFe {block : List UInt8} (h : head.encode area <+: block)
    (hlen : area.length < 2 ^ 32) (harea : AreaOf partitionStart head area data) :
    Udf.parseFe partitionStart block = .ok ⟨fileTypeKind head.fileType, head.infoLen.toNat, data⟩ := by
  have hattributes := head.attributes_lt
  have hfront : encodeFields (head.fields area.length) <+: block := by
    refine List.IsPrefix.trans ?_ h
    unfold EntryHead.encode
    rw [List.append_assoc]
    exact List.prefix_append ..
  have hslice : ∀ {n}, fieldsWidth (head.fields area.length) = n →
      slice block (n + head.attributes.length) area.length = some area := by
    intro n hn
    obtain ⟨post, rfl⟩ := h
    refine slice_of_append rfl ?_ rfl
    rw [List.length_append, encodeFields_length, hn]
  have htype : block[27]? = some head.fileType :=
    byte_encodeFields (k := 2) hfront rfl (by
      simp only [EntryHead.fields, List.take_succ_cons, List.take_zero, fieldsWidth])
  have hflags : leU16 block 34 = .ok head.flags.toNat :=
    leAt_encodeFields (k := 4) hfront rfl head.flags.toNat_lt (by
      simp only [EntryHead.fields, List.take_succ_cons, List.take_zero, fieldsWidth])
  have hinfo : leU64 block 56 = .ok head.infoLen.toNat :=
    leAt_encodeFields (k := 6) hfront rfl head.infoLen.toNat_lt (by
      simp only [EntryHead.fields, List.take_succ_cons, List.take_zero, fieldsWidth])
  have htag : leU16 block 0 =
      .ok (if head.extended then tagExtendedFileEntry else tagFileEntry) :=
    leAt_encodeFields (k := 0) hfront rfl (by split <;> decide) rfl
  have hread : ∀ {lEaAt lAdAt eaStart}, entryLayout
        (if head.extended then tagExtendedFileEntry else tagFileEntry) = .ok (lEaAt, lAdAt, eaStart) →
      fieldsWidth ((head.fields area.length).take 8) = lEaAt →
      fieldsWidth ((head.fields area.length).take 9) = lAdAt →
      fieldsWidth (head.fields area.length) = eaStart → eaStart ≤ 216 →
      Udf.parseFe partitionStart block =
        .ok ⟨fileTypeKind head.fileType, head.infoLen.toNat, data⟩ := by
    intro lEaAt lAdAt eaStart hlayout hlEaAt hlAdAt heaStart hle
    have hlEa : leU32 block lEaAt = .ok head.attributes.length :=
      leAt_encodeFields (k := 8) hfront rfl hattributes hlEaAt
    have hlAd : leU32 block lAdAt = .ok area.length :=
      leAt_encodeFields (k := 9) hfront rfl hlen hlAdAt
    have hadOff : checkedU64 (eaStart + head.attributes.length) = some _ := if_pos (by omega)
    have hdata := harea.fileData (by omega) (hslice heaStart)
    unfold Udf.parseFe
    rw [htag, ok_bind, hlayout, ok_bind]
    dsimp only
    rw [htype, okOr, ok_bind, hflags, ok_bind, hinfo, ok_bind, hlEa, ok_bind, hlAd, ok_bind, hadOff,
      okOr, ok_bind, hdata]
    rfl
  cases hext : head.extended with
  | false =>
    refine hread (by rw [hext]; rfl) ?_ ?_ ?_ (by decide) <;>
      simp [EntryHead.fields, fieldsWidth, hext]
  | true =>
    refine hread (by rw [hext]; rfl) ?_ ?_ ?_ (by decide) <;>
      simp [EntryHead.fields, fieldsWidth, hext]

/-- The bytes of an extent: from its block on, or zeros where it is not recorded. -/
structure ExtentStored (vol : Volume) (e : Extent) (chunk : List UInt8) : Prop where
  length : chunk.length = e.len
  recorded : ∀ lba, e.lba = some lba →
    slice vol.src.content (lba * vol.blockSize) chunk.length = some chunk
  unrecorded : e.lba = none → chunk = List.replicate e.len 0

/-- The data of a file. Its extents may go on behind its end. -/
inductive DataStored (vol : Volume) : FileData → List UInt8 → Prop
  | inline {bytes : List UInt8} : DataStored vol (.inline bytes) bytes
  | extents {ex : List Extent} {chunks : List (List UInt8)} {bytes : List UInt8}
      (hchunks : List.Forall₂ (ExtentStored vol) ex chunks) (hbytes : bytes <+: chunks.flatten) :
      DataStored vol (.extents ex) bytes

variable {vol : Volume} {inode : UdfInode} {bytes : List UInt8}

theorem ExtentStored.supplies {e : Extent} {chunk : List UInt8} (h : ExtentStored vol e chunk) :
    Supplies Extent.len (readExtent vol) e chunk where
  length := h.length
  read {intra n} hin := by
    unfold readExtent
    cases hlba : e.lba with
    | some lba =>
      have hslice := h.recorded lba hlba
      have hle := (slice_eq_some.mp hslice).1
      have hlen := vol.src.length_lt
      have hdisk : u64 (lba * vol.blockSize + intra) = .ok _ := fits_eq_ok.mpr ⟨by omega, rfl⟩
      dsimp only
      rw [hdisk, lift_ok_bind, Source.readAt_part hslice hin]
    | none =>
      rw [h.length] at hin
      rw [h.unrecorded hlba, List.drop_replicate, List.take_replicate, Nat.min_eq_left (by omega)]
      rfl

theorem readAllExtents_stored {total : ℕ} {es : List Extent} {chunks : List (List UInt8)}
    (h : List.Forall₂ (ExtentStored vol) es chunks) (out : List UInt8) :
    readAllExtents vol total es out = .ok (out ++ chunks.flatten.take (total - out.length)) := by
  induction h generalizing out with
  | nil => simp [readAllExtents, pure, Except.pure]
  | @cons e chunk es chunks hfirst _ ih =>
    rw [readAllExtents]
    by_cases hfull : out.length ≥ total
    · rw [if_pos hfull, Nat.sub_eq_zero_of_le hfull, List.take_zero, List.append_nil]
      rfl
    have hin : 0 + min e.len (total - out.length) ≤ chunk.length := by
      rw [hfirst.length]
      omega
    have hpiece : chunk.take (min e.len (total - out.length)) =
        chunk.take (total - out.length) := by
      rw [← hfirst.length, Nat.min_comm, ← List.take_take, List.take_length]
    have hrest : total - (out ++ chunk.take (total - out.length)).length =
        total - out.length - chunk.length := by
      rw [List.length_append, List.length_take]
      omega
    rw [if_neg hfull, hfirst.supplies.read hin, ok_bind, List.drop_zero, hpiece, ih, hrest,
      List.flatten_cons, List.take_append, List.append_assoc]

/-- `read_all` gives the data. -/
theorem DataStored.readAll (h : DataStored vol inode.data bytes) (hsize : inode.size = bytes.length)
    (hcap : bytes.length ≤ maxBootFileBytes) : Udf.readAll vol inode = .ok bytes := by
  unfold Udf.readAll
  generalize inode.data = data at h
  cases h with
  | inline => rfl
  | extents hchunks hbytes =>
    have hall := List.prefix_iff_eq_take.mp hbytes
    dsimp only
    rw [hsize, checkedFullReadLen_eq_ok.mpr ⟨hcap, rfl⟩, lift_ok_bind, readAllExtents_stored hchunks,
      ok_bind, List.nil_append, List.length_nil, Nat.sub_zero, ← hall, List.take_length]
    rfl

/-- Inside the data a window is read. -/
theorem DataStored.readData (h : DataStored vol inode.data bytes) (hbounded : inode.Bounded)
    {off want : ℕ} (hin : off + want ≤ bytes.length) :
    Udf.readData vol inode.data off want = .ok ((bytes.drop off).take want) := by
  have hdata := hbounded.data
  unfold Udf.readData
  generalize inode.data = data at h hdata
  cases h with
  | inline =>
    dsimp only
    rw [Nat.min_eq_left (by omega), slice_eq_some.mpr ⟨hin, rfl⟩]
    rfl
  | @extents ex chunks _ hchunks hbytes =>
    have hsupplies := hchunks.imp fun _ _ hstored => ExtentStored.supplies hstored
    have htotal : totalLen Extent.len ex < 2 ^ 62 := hdata.2
    have hlen := hbytes.length_le
    rw [Supplies.totalLen hsupplies] at htotal
    dsimp only
    rw [readExtents_supplied hsupplies (by omega) (by omega) (.inl (Nat.zero_le _)), List.nil_append,
      List.length_nil, Nat.sub_zero, Nat.sub_zero, Nat.add_zero]
    obtain ⟨rest, hrest⟩ := hbytes
    rw [← hrest, List.drop_append_of_le_length (by omega),
      List.take_append_of_le_length (by rw [List.length_drop]; omega)]

/-- A descriptor of the Main Volume Descriptor Sequence that does not end it. -/
inductive Descriptor
  | partition (front : ℕ) (start : UInt32)
  | logicalVolume (front : ℕ) (blockSize : UInt32) (between : ℕ) (fsdLb : UInt32)
  | other (tag : UInt16) (hpartition : tag.toNat ≠ tagPartition)
      (hvolume : tag.toNat ≠ tagLogicalVolume) (hterminating : tag.toNat ≠ tagTerminating)

namespace Descriptor

def fields : Descriptor → List (ℕ × ℕ)
  | .partition front start => [(2, tagPartition), (186, front), (4, start.toNat)]
  | .logicalVolume front blockSize between fsdLb =>
    [(2, tagLogicalVolume), (210, front), (4, blockSize.toNat), (36, between), (4, fsdLb.toNat)]
  | .other tag _ _ _ => [(2, tag.toNat)]

/-- What is known after it: the last one of a kind counts. -/
def note (found : Vds) : Descriptor → Vds
  | .partition _ start => { found with partitionStart := some start.toNat }
  | .logicalVolume _ blockSize _ fsdLb =>
    { found with lvd := some (blockSize.toNat, fsdLb.toNat) }
  | .other _ _ _ _ => found

end Descriptor

/-- The descriptors from sector `lba` on, of which at most `count` are read. -/
inductive Sequence (src : Source) : ℕ → ℕ → List Descriptor → Prop
  | full {lba : ℕ} : Sequence src lba 0 []
  | terminated {lba count : ℕ}
      (hterminating : BlockAt src sector lba (encodeFields [(2, tagTerminating)])) :
      Sequence src lba (count + 1) []
  | cons {lba count : ℕ} {d : Descriptor} {ds : List Descriptor}
      (hd : BlockAt src sector lba (encodeFields d.fields))
      (hrest : Sequence src (lba + 1) count ds) : Sequence src lba (count + 1) (d :: ds)

theorem walkVds_sequence {src : Source} {mvdsLoc i count : ℕ} {ds : List Descriptor} (found : Vds)
    (h : Sequence src (mvdsLoc + i) count ds) :
    walkVds src mvdsLoc count i found = .ok (ds.foldl Descriptor.note found) := by
  induction count generalizing i ds found with
  | zero =>
    cases h
    rfl
  | succ count ih =>
    cases h with
    | terminated hterminating =>
      obtain ⟨block, hblock, hbytes⟩ := hterminating.readBlock
      have hlba : u32 (mvdsLoc + i) = .ok _ := fits_eq_ok.mpr ⟨hterminating.1, rfl⟩
      have htag : leU16 block 0 = .ok tagTerminating :=
        leAt_encodeFields (k := 0) hbytes rfl (by decide) rfl
      rw [walkVds, hlba, lift_ok_bind, hblock, ok_bind, htag, lift_ok_bind, if_neg (by decide),
        if_neg (by decide), if_pos rfl]
      rfl
    | @cons _ _ d ds hd hrest =>
      obtain ⟨block, hblock, hbytes⟩ := hd.readBlock
      have hlba : u32 (mvdsLoc + i) = .ok _ := fits_eq_ok.mpr ⟨hd.1, rfl⟩
      rw [Nat.add_assoc] at hrest
      rw [walkVds, hlba, lift_ok_bind, hblock, ok_bind, List.foldl_cons]
      cases d with
      | partition front start =>
        have htag : leU16 block 0 = .ok tagPartition :=
          leAt_encodeFields (k := 0) hbytes rfl (by decide) rfl
        have hstart : leU32 block 188 = .ok start.toNat :=
          leAt_encodeFields (k := 2) hbytes rfl start.toNat_lt rfl
        rw [htag, lift_ok_bind, if_pos rfl, hstart, lift_ok_bind, ih _ hrest]
        rfl
      | logicalVolume front blockSize between fsdLb =>
        have htag : leU16 block 0 = .ok tagLogicalVolume :=
          leAt_encodeFields (k := 0) hbytes rfl (by decide) rfl
        have hlbs : leU32 block 212 = .ok blockSize.toNat :=
          leAt_encodeFields (k := 2) hbytes rfl blockSize.toNat_lt rfl
        have hfsdLb : leU32 block 252 = .ok fsdLb.toNat :=
          leAt_encodeFields (k := 4) hbytes rfl fsdLb.toNat_lt rfl
        rw [htag, lift_ok_bind, if_neg (by decide), if_pos rfl, hlbs, lift_ok_bind, hfsdLb,
          lift_ok_bind, ih _ hrest]
        rfl
      | other tag hpartition hvolume hterminating =>
        have htag : leU16 block 0 = .ok tag.toNat :=
          leAt_encodeFields (k := 0) hbytes rfl tag.toNat_lt rfl
        rw [htag, lift_ok_bind, if_neg hpartition, if_neg hvolume, if_neg hterminating, ih _ hrest]
        rfl

/-- What the descriptors from the anchor to the root say. -/
structure Chain where
  anchorTag : ℕ
  mvdsLen : UInt32
  mvdsLoc : UInt32
  descriptors : List Descriptor
  start : UInt32
  blockSize : UInt32
  fsdLb : UInt32
  fileSetFront : ℕ
  rootIcbLb : UInt32

section Volumes

variable {ι : Type} (src : Source) (g : Files ι) (place : ι → ℕ)

/-- The volume of the chain; blocks of no size are sectors. -/
def Chain.volume (chain : Chain) : Volume where
  src := src
  blockSize := if chain.blockSize.toNat ≠ 0 then chain.blockSize.toNat else sector
  partitionStart := chain.start.toNat

/-- A listed record has the name of the entry and the File Entry of its file. -/
structure EntryOf (vol : Volume) (entry : Str × ι) (r : FidRecord) : Prop where
  name : r.name = entry.1
  icb : vol.partitionStart + r.icbLb = place entry.2

/-- An inode that stands for the item, with its data. -/
inductive InodeOf (vol : Volume) (inode : UdfInode) : Item Str (List UInt8) ι → Prop
  | dir {entries : List (Str × ι)} (records : List FidRecord) (hkind : inode.kind = .directory)
      (hentries : List.Forall₂ (EntryOf place vol) entries (records.filter FidRecord.Listed))
      (hsize : inode.size = (records.flatMap FidRecord.encode).length)
      (hcap : (records.flatMap FidRecord.encode).length ≤ maxBootFileBytes)
      (hstored : DataStored vol inode.data (records.flatMap FidRecord.encode)) :
      InodeOf vol inode (.dir entries)
  | file {bytes : List UInt8} (hkind : inode.kind = .regular) (hsize : inode.size = bytes.length)
      (hstored : DataStored vol inode.data bytes) : InodeOf vol inode (.file bytes)
  | special (hkind : inode.kind = .other) : InodeOf vol inode .special

/-- The volume of a chain of descriptors stores the files, each with its File Entry in its
block. -/
structure Stores (chain : Chain) : Prop where
  anchor : BlockAt src sector avdpSector (encodeFields [(2, tagAvdp), (14, chain.anchorTag),
    (4, chain.mvdsLen.toNat), (4, chain.mvdsLoc.toNat)])
  sequence : Sequence src chain.mvdsLoc.toNat (min (chain.mvdsLen.toNat / sector) maxVdsSectors)
    chain.descriptors
  found : chain.descriptors.foldl Descriptor.note ⟨none, none⟩ =
    ⟨some chain.start.toNat, some (chain.blockSize.toNat, chain.fsdLb.toNat)⟩
  fileSet : BlockAt src (chain.volume src).blockSize (chain.start.toNat + chain.fsdLb.toNat)
    (encodeFields [(2, tagFileSet), (402, chain.fileSetFront), (4, chain.rootIcbLb.toNat)])
  root : place g.root = chain.start.toNat + chain.rootIcbLb.toNat
  files : ∀ i, ∃ head area data,
    BlockAt src (chain.volume src).blockSize (place i) (EntryHead.encode head area) ∧
      AreaOf chain.start.toNat head area data ∧
      InodeOf place (chain.volume src)
        ⟨fileTypeKind head.fileType, head.infoLen.toNat, data⟩ (g.item i)

variable {src g place} {chain : Chain} {i : ι} {u : Udf} {node : NodeId}

theorem Stores.openVolume (h : Stores src g place chain) :
    Udf.openVolume src = .ok (chain.volume src, chain.fsdLb.toNat) := by
  obtain ⟨avdp, havdp, hbytes⟩ := h.anchor.readBlock
  have htag : leU16 avdp 0 = .ok tagAvdp := leAt_encodeFields (k := 0) hbytes rfl (by decide) rfl
  have hlen : leU32 avdp 16 = .ok chain.mvdsLen.toNat :=
    leAt_encodeFields (k := 2) hbytes rfl chain.mvdsLen.toNat_lt rfl
  have hloc : leU32 avdp 20 = .ok chain.mvdsLoc.toNat :=
    leAt_encodeFields (k := 3) hbytes rfl chain.mvdsLoc.toNat_lt rfl
  have hwalk : walkVds src chain.mvdsLoc.toNat (min (chain.mvdsLen.toNat / sector) maxVdsSectors) 0
      ⟨none, none⟩ = .ok _ := walkVds_sequence ⟨none, none⟩ h.sequence
  unfold Udf.openVolume
  rw [havdp, ok_bind, htag, lift_ok_bind, if_neg (not_not.mpr rfl), hlen, lift_ok_bind, hloc,
    lift_ok_bind, hwalk, ok_bind, h.found]
  rfl

theorem Stores.rootFe (h : Stores src g place chain) :
    Udf.rootFe (chain.volume src) chain.fsdLb.toNat = .ok (place g.root) := by
  obtain ⟨fsd, hfsd, hbytes⟩ := h.fileSet.readBlock
  have hfsdLba : u32 (chain.start.toNat + chain.fsdLb.toNat) = .ok _ :=
    fits_eq_ok.mpr ⟨h.fileSet.1, rfl⟩
  have htag : leU16 fsd 0 = .ok tagFileSet :=
    leAt_encodeFields (k := 0) hbytes rfl (by decide) rfl
  have hicb : leU32 fsd 404 = .ok chain.rootIcbLb.toNat :=
    leAt_encodeFields (k := 2) hbytes rfl chain.rootIcbLb.toNat_lt rfl
  obtain ⟨head, area, data, hblock, -⟩ := h.files g.root
  have hroot : u32 (chain.start.toNat + chain.rootIcbLb.toNat) = .ok (place g.root) :=
    fits_eq_ok.mpr ⟨h.root ▸ hblock.1, h.root.symm⟩
  unfold Udf.rootFe
  change (do
    let fsdLba ← u32 (chain.start.toNat + chain.fsdLb.toNat)
    let fsd ← Udf.readBlock src (chain.volume src).blockSize fsdLba
    let tag ← leU16 fsd 0
    if tag ≠ tagFileSet then fail (.corrupt "udf: no File Set Descriptor")
    else do
      let rootIcbLb ← leU32 fsd 404
      u32 (chain.start.toNat + rootIcbLb)) = _
  rw [hfsdLba, ok_bind, hfsd, ok_bind, htag, ok_bind, if_neg (not_not.mpr rfl), hicb, ok_bind,
    hroot]

/-- Every file has an inode that stands for it. -/
theorem Stores.inodes (h : Stores src g place chain) :
    ∃ inode : ι → UdfInode, ∀ i, place i < 2 ^ 32 ∧
      readFe (chain.volume src) (place i) = .ok (inode i) ∧
        InodeOf place (chain.volume src) (inode i) (g.item i) := by
  choose head area data hblock harea hof using h.files
  refine ⟨_, fun i => ⟨(hblock i).1, ?_, hof i⟩⟩
  obtain ⟨block, hread, hbytes⟩ := (hblock i).readBlock
  have hsize : (chain.volume src).blockSize < 2 ^ 32 := by
    have hlt := chain.blockSize.toNat_lt
    unfold Chain.volume
    dsimp only
    split
    · exact hlt
    · exact sector_lt
  have hlen : (area i).length < 2 ^ 32 := by
    have hle := hbytes.length_le
    rw [readBlock_length hread, EntryHead.encode, List.length_append] at hle
    omega
  exact bind_eq_ok.mpr ⟨block, hread, (head i).parseFe hbytes hlen (harea i)⟩

theorem exec_inode_ok {found : UdfInode} (h : u.table.inode node = .ok found) :
    exec (Udf.inode node) u = (.ok found, u) := by
  rw [exec_inode, h]

/-- What is read of a file leaves the volume and the table as they are. -/
theorem reads : NodeTable.Reads frontend where
  metadata P node := by
    refine Preserves.bind (preserves_reading P _) ?_
    exact fun _ => Preserves.pure _ _
  readAt P node off buf := by
    refine Preserves.bind (preserves_reading P _) ?_
    intro inode
    refine Preserves.ite (Preserves.throw _ _) ?_
    refine Preserves.ite (Preserves.pure _ _) ?_
    refine Preserves.bind (Preserves.get _) ?_
    intro u
    exact Preserves.bind (Preserves.lift _ _) fun _ => Preserves.pure _ _
  readLink P _ := Preserves.pure P _

variable {vol : Volume} {inode : ι → UdfInode}

/-- The records of a directory lead to its entries. -/
theorem InodeOf.records {found : UdfInode} {entries : List (Str × ι)}
    (h : InodeOf place vol found (.dir entries))
    (hinode : ∀ i, place i < 2 ^ 32 ∧ readFe vol (place i) = .ok (inode i)) :
    ∃ records, nodeTable.records vol found = .ok records ∧
      List.Forall₂ (InternTable.RecordOf id (readFe vol) place inode) entries records := by
  cases h with
  | @dir _ records hkind hentries hsize hcap hstored =>
    have hfits : List.Forall₂ (fun r entry => vol.partitionStart + r.icbLb < 2 ^ 32 ∧
        EntryOf place vol entry r) (records.filter FidRecord.Listed) entries := by
      apply List.Forall₂.flip
      refine hentries.imp fun entry r hentry => ⟨?_, hentry⟩
      rw [hentry.icb]
      exact (hinode entry.2).1
    have hsum : ∀ r ∈ records, r.Listed → vol.partitionStart + r.icbLb < 2 ^ 32 :=
      fun r hr hlisted => ((List.forall₂_and_left _ _).mp hfits).1 r (List.mem_filter.mpr ⟨hr, hlisted⟩)
    have hscan := @parseFidsFrom_encode vol.partitionStart records [] hsum
    rw [List.nil_append] at hscan
    refine ⟨(records.filter FidRecord.Listed).map fun r => (r.name, vol.partitionStart + r.icbLb),
      ?_, List.forall₂_map_right_iff.mpr (hentries.imp fun entry r hentry => ?_)⟩
    · change (if found.kind ≠ .directory then _ else _) = _
      rw [if_neg (not_not.mpr hkind), hstored.readAll hsize hcap, ok_bind]
      exact hscan
    · refine ⟨hentry.name, hentry.icb, ?_⟩
      dsimp only
      rw [hentry.icb]
      exact (hinode entry.2).2

theorem InodeOf.kind_eq {found : UdfInode} (h : InodeOf place vol found (g.item i)) :
    found.kind = g.kind i := by
  unfold Files.kind
  generalize g.item i = item at h
  cases h with
  | dir records hkind => exact hkind
  | file hkind => exact hkind
  | special hkind => exact hkind

/-- The inodes that are stored are served. -/
theorem stored (h : ∀ i, place i < 2 ^ 32 ∧ readFe vol (place i) = .ok (inode i) ∧
      InodeOf place vol (inode i) (g.item i)) :
    nodeTable.Stored frontend vol g place inode where
  same {i j} hij := by
    have hi := (h i).2.1
    rw [hij, (h j).2.1] at hi
    exact (Except.ok.inj hi).symm
  kind i := (h i).2.2.kind_eq
  records {i entries} hitem := by
    have hof := (h i).2.2
    rw [hitem] at hof
    exact hof.records fun j => ⟨(h j).1, (h j).2.1⟩
  no_records {i} found hother := by
    have hkind : (inode i).kind ≠ .directory := (h i).2.2.kind_eq ▸ hother
    change (if (inode i).kind ≠ .directory then _ else _) ≠ _
    rw [if_pos hkind]
    exact fun hok => nomatch hok
  root _ _ := rfl
  reads := reads
  readDir := readDir_eq
  lookup := .inl lookup_eq
  metadata {s node i} _ hnode := by
    refine ⟨⟨(inode i).kind, (inode i).size, 0⟩, ?_, (h i).2.2.kind_eq, fun bytes hitem => ?_⟩
    · change (exec (metadata node) s).1 = _
      unfold metadata
      rw [exec_bind_of_ok (exec_inode_ok hnode)]
      rfl
    · have hof := (h i).2.2
      rw [hitem] at hof
      cases hof with
      | file _ hsize => exact hsize
  readAt {s node i bytes} off buf hvol hnode hitem hbuf := by
    have hof := (h i).2.2
    rw [hitem] at hof
    have hvol' : s.vol = vol := hvol
    change (exec (readAt node off buf) s).1 = _
    unfold readAt
    rw [exec_bind_of_ok (exec_inode_ok hnode)]
    cases hof with
    | file hkind hsize hstored =>
      rw [hkind, if_neg (by decide)]
      by_cases hpast : off ≥ (inode i).size
      · rw [if_pos hpast, windowOf_past (by omega)]
        rfl
      · have hin : off + min buf.length ((inode i).size - off) ≤ bytes.length := by omega
        have hread := hstored.readData (readFe_bounded (h i).2.1) hin
        have hn : min buf.length ((inode i).size - off) =
            min buf.length (bytes.length - off) := by rw [hsize]
        have hlen : ((bytes.drop off).take (min buf.length ((inode i).size - off))).length =
            min buf.length ((inode i).size - off) := by
          rw [List.length_take, List.length_drop]
          omega
        rw [if_neg hpast, exec_bind_of_ok (exec_get s), hvol', hread, windowOf_eq hn]
        exact congrArg (fun n => Except.ok (n, overwrite buf 0 _)) hlen
  readLink {s node i target} _ _ hitem := by
    have hof := (h i).2.2
    rw [hitem] at hof
    cases hof

theorem Stores.mount (h : Stores src g place chain) {inode : ι → UdfInode}
    (hroot : readFe (chain.volume src) (place g.root) = .ok (inode g.root)) :
    mount src =
      .ok ⟨chain.volume src, (InternTable.empty.intern (place g.root) (inode g.root)).2⟩ := by
  unfold Udf.mount
  rw [h.openVolume, ok_bind]
  dsimp only
  rw [h.rootFe, ok_bind, hroot]
  rfl

/-- A volume that stores files is opened, and presents them. -/
theorem udf_presents (h : Stores src g place chain) :
    ∃ u, mount src = .ok u ∧ Presents frontend g u := by
  obtain ⟨inode, hinode⟩ := h.inodes
  exact ⟨_, h.mount (hinode g.root).2.1,
    (stored hinode).serves.presents (NodeTable.Stored.mounted rfl rfl rfl)⟩

end Volumes

/-- A sector of the source begins as it was given. -/
theorem blockAt_far {heads : List (List UInt8)}
    {hheads : ∀ bytes ∈ heads, bytes.length ≤ sector} {hcount : heads.length < 2 ^ 16} {k : ℕ}
    {bytes : List UInt8} (hk : heads[k]? = some bytes) :
    BlockAt (farSource heads hheads hcount) sector (avdpSector + k) bytes := by
  obtain ⟨hlt, -⟩ := List.getElem?_eq_some_iff.mp hk
  refine ⟨?_, sectorOf bytes, ?_, List.prefix_append _ _⟩
  · unfold avdpSector
    omega
  · have hblock : readBlock (farSource heads hheads hcount) sector (avdpSector + k) =
        .ok (sectorOf bytes) := readBlock_far hk
    obtain ⟨off, hoff, hread⟩ := bind_eq_ok.mp hblock
    obtain ⟨-, rfl⟩ := fits_eq_ok.mp hoff
    obtain ⟨stop, -, hread⟩ := bind_eq_ok.mp hread
    split at hread
    · exact absurd hread (fail_ne_ok _ _)
    · exact Source.readAt_eq_ok.mp hread

theorem BlockAt.slice {src : Source} {blockSize lba : ℕ} {bytes : List UInt8}
    (h : BlockAt src blockSize lba bytes) :
    Bytes.slice src.content (lba * blockSize) bytes.length = some bytes := by
  obtain ⟨-, block, hslice, post, rfl⟩ := h
  exact (slice_parts hslice).1

theorem letterFid_encodes (c : UInt8) : Encodes [c.toNat] [8, c] := by
  have h : Encodes [c.toNat] (8 :: [c.toNat].map UInt8.ofNat) := by
    apply Encodes.latin1
    intro n hn
    rw [List.mem_singleton.mp hn]
    exact c.toNat_lt
  rwa [List.map_singleton, UInt8.ofNat_toNat] at h

theorem noUse_lt : ([] : List UInt8).length < 2 ^ 16 := by decide

theorem letterFi_lt (c : UInt8) : [8, c].length < 2 ^ 8 := by simp

theorem letterPadding_len (c : UInt8) : ([] : List UInt8).length =
    (38 + ([] : List UInt8).length + [8, c].length + 3) / 4 * 4 -
      (38 + ([] : List UInt8).length + [8, c].length) := by simp

/-- The descriptor of a file with one letter as its name. -/
def letterFid (icbLb : UInt32) (c : UInt8) : FidRecord where
  __ := deletedFid
  fc := 0
  icbLb := icbLb.toNat
  icbLb_lt := icbLb.toNat_lt
  iu := []
  iu_lt := noUse_lt
  fi := [8, c]
  fi_lt := letterFi_lt c
  chars := [c.toNat]
  encodes _ _ := letterFid_encodes c
  padding := []
  padding_len := letterPadding_len c

def letterRecords : List FidRecord := [deletedFid, letterFid 5 0x61, letterFid 6 0x62]

theorem recorded_lt : 0 < 4 := by decide

theorem unrecorded_lt : 1 < 4 := by decide

theorem recorded_ne (len : ℕ) : len ≠ 0 → 0 ≠ 3 := fun _ => by decide

theorem unrecorded_ne (len : ℕ) : len ≠ 0 → 1 ≠ 3 := fun _ => by decide

/-- `len` bytes from a block of the partition on. -/
def recordedAd (len : UInt16) (block : UInt32) (use : List UInt8) : AllocDesc :=
  ⟨0, len.toNat, block, use, recorded_lt, Nat.lt_trans len.toNat_lt (by decide), recorded_ne _⟩

def unrecordedAd (len : UInt16) : AllocDesc :=
  ⟨1, len.toNat, 0, [], unrecorded_lt, Nat.lt_trans len.toNat_lt (by decide), unrecorded_ne _⟩

theorem noAttributes_lt : ([] : List UInt8).length < 2 ^ 32 := by decide

def letterHead (extended : Bool) (fileType : UInt8) (flags : UInt16) (infoLen : UInt64) : EntryHead :=
  ⟨extended, 0, fileType, 0, flags, 0, infoLen, 0, [], noAttributes_lt⟩

def rootHead : EntryHead := letterHead false ftDirectory 1 124

def fileHead : EntryHead := letterHead true ftRegular 0 3

def emptyHead : EntryHead := letterHead true ftDirectory 3 44

def rootAds : List AllocDesc := [recordedAd 124 7 (List.replicate 8 0)]

def fileAds : List AllocDesc := [recordedAd 2 8 [], unrecordedAd 5]

def letterChain : Chain where
  anchorTag := 0
  mvdsLen := 6144
  mvdsLoc := 257
  descriptors := [.partition 0 257, .logicalVolume 0 2048 0 3]
  start := 257
  blockSize := 2048
  fsdLb := 3
  fileSetFront := 0
  rootIcbLb := 4

/-- The descriptors, the three File Entries, the root's records, and the bytes of the file. -/
def letterHeads : List (List UInt8) :=
  [encodeFields [(2, tagAvdp), (14, 0), (4, 6144), (4, 257)],
    encodeFields (Descriptor.fields (.partition 0 257)),
    encodeFields (Descriptor.fields (.logicalVolume 0 2048 0 3)),
    encodeFields [(2, tagTerminating)],
    encodeFields [(2, tagFileSet), (402, 0), (4, 4)],
    rootHead.encode (rootAds.flatMap AllocDesc.encode),
    fileHead.encode (fileAds.flatMap AllocDesc.encode),
    emptyHead.encode deletedFid.encode,
    letterRecords.flatMap FidRecord.encode,
    [0x68, 0x69]]

theorem letterHeads_le : ∀ bytes ∈ letterHeads, bytes.length ≤ sector := by decide +kernel

theorem letterHeads_lt : letterHeads.length < 2 ^ 16 := by decide

def letterSource : Source := farSource letterHeads letterHeads_le letterHeads_lt

/-- A directory with a file `a`, of which two bytes are recorded, and an empty directory `b`. -/
def letterFiles : Files Few where
  root := .root
  item
    | .root => .dir [([0x61], .first), ([0x62], .second)]
    | .first => .file [0x68, 0x69, 0]
    | .second => .dir []

def letterPlace : Few → ℕ
  | .root => 261
  | .first => 262
  | .second => 263

theorem blockAt_letterSource {k : ℕ} {bytes : List UInt8} (hk : letterHeads[k]? = some bytes) :
    BlockAt letterSource sector (avdpSector + k) bytes := blockAt_far hk

theorem stores_letterSource : Stores letterSource letterFiles letterPlace letterChain where
  anchor := blockAt_letterSource (k := 0) rfl
  sequence := by
    have hcount : min (letterChain.mvdsLen.toNat / sector) maxVdsSectors = 3 := rfl
    rw [hcount]
    refine .cons (blockAt_letterSource (k := 1) rfl) ?_
    refine .cons (blockAt_letterSource (k := 2) rfl) ?_
    exact .terminated (blockAt_letterSource (k := 3) rfl)
  found := rfl
  fileSet := blockAt_letterSource (k := 4) rfl
  root := rfl
  files i := by
    have hrecorded : ∀ {k bytes}, letterHeads[k]? = some bytes →
        ExtentStored (letterChain.volume letterSource) ⟨some (avdpSector + k), bytes.length⟩
          bytes := by
      intro k bytes hk
      refine ⟨rfl, fun lba hlba => ?_, by simp⟩
      obtain rfl := Option.some.inj hlba
      exact (blockAt_letterSource hk).slice
    match i with
    | .root =>
      refine ⟨rootHead, _, _, blockAt_letterSource (k := 5) rfl, .long rfl (by decide) (by decide),
        .dir letterRecords rfl ?_ (by decide +kernel) (by decide +kernel) ?_⟩
      · exact .cons ⟨by decide +kernel, rfl⟩ (.cons ⟨by decide +kernel, rfl⟩ .nil)
      · exact .extents (.cons (hrecorded (k := 8) rfl) .nil) ⟨[], rfl⟩
    | .first =>
      refine ⟨fileHead, _, _, blockAt_letterSource (k := 6) rfl, .short rfl (by decide) (by decide),
        .file rfl rfl ?_⟩
      have hzeros : ExtentStored (letterChain.volume letterSource) ⟨none, 5⟩
          (List.replicate 5 0) := ⟨rfl, by simp, fun _ => rfl⟩
      exact .extents (.cons (hrecorded (k := 9) rfl) (.cons hzeros .nil)) ⟨[0, 0, 0, 0], rfl⟩
    | .second =>
      refine ⟨emptyHead, _, _, blockAt_letterSource (k := 7) rfl,
        .inline rfl (by decide +kernel) (by decide +kernel),
        .dir [deletedFid] rfl .nil (by decide +kernel) (by decide +kernel) ?_⟩
      exact .inline

/-- The file of the volume is read after its directory, over an unrecorded extent. -/
theorem answers_iff_addressesFit_letterSource : ∃ u, mount letterSource = .ok u ∧
    (frontend.Answers (.readAt 1 0 [0, 0, 0]) (frontend.after (.readDir 0) u) ↔
      CallFits (frontend.after (.readDir 0) u) (.readAt 1 0 [0, 0, 0])) := by
  obtain ⟨inode, hinode⟩ := stores_letterSource.inodes
  have hmount := stores_letterSource.mount (hinode .root).2.1
  exact ⟨_, hmount, (answers_iff_addressesFit letterSource).2 _ _ _ hmount
    (.call () (.readDir 0) .refl)⟩

theorem udf_presents_letterSource :
    ∃ u, mount letterSource = .ok u ∧ Presents frontend letterFiles u :=
  udf_presents stores_letterSource

end Lamfold.Udf
