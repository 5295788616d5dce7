import Lamfold.Cpio
import Lamfold.Cramfs
import Lamfold.Erofs
import Lamfold.Iso9660
import Lamfold.PathReading
import Lamfold.Romfs
import Lamfold.Squash
import Lamfold.Udf

/-!
The errors of a call of its own. `resolve` reports a link without a target with an
error that no lookup, no metadata and no link read of any frontend has: each step of
these calls fails with another error, or with one of a step in it.
-/
namespace Lamfold

open Effects Lamfold.Path

@[simp] theorem own_readAt {src : Source} {offset n : ℕ} :
    RaisesOnly OwnError (src.readAt offset n) := by
  simp [Source.readAt, Reads.read, Source.fill]

@[simp] theorem own_checkedFullReadLen {n : ℕ} : RaisesOnly OwnError (checkedFullReadLen n) := by
  simp [checkedFullReadLen]

@[simp] theorem own_checkedBlockLen {n : ℕ} : RaisesOnly OwnError (checkedBlockLen n) := by
  simp [checkedBlockLen]

section Decode

variable {ρ : Type} {codecs : Codecs ρ}

/-- A decoder that reads on fails with an error of its own only where it stops. -/
@[simp] theorem own_readUpTo {reader : ρ} {want : ℕ} {what : String} :
    RaisesOnly OwnError (readUpTo codecs reader want what) := by
  fun_induction readUpTo codecs reader want what with
  | case1 => exact .ok _
  | case2 => exact .fail (by simp)
  | case3 => exact .ok _
  | case4 reader want hwant chunk reader' hread hchunk ih => exact ih.bind fun _ _ => .ok _

/-- Every codec refuses its input as corrupt, as too large, or as not supported. -/
@[simp] theorem own_decode {codec : Codec} {input : List UInt8} {len : ℕ} :
    RaisesOnly OwnError (decode codecs codec input len) := by
  cases codec <;> simp [decode, xzDecode, zstdDecode]

@[simp] theorem own_lz4BlockWithDict {input dict : List UInt8} {len : ℕ} :
    RaisesOnly OwnError (lz4BlockWithDict codecs input len dict) := by
  simp [lz4BlockWithDict]

@[simp] theorem own_microlzmaBlockDecode {span : List UInt8} {props : UInt8} {dictSize len : ℕ} :
    RaisesOnly OwnError (microlzmaBlockDecode codecs span props dictSize len) := by
  cases span <;> simp [microlzmaBlockDecode]

end Decode

section Tables

variable {κ ι α : Type}

@[simp] theorem own_tableInode {t : InternTable κ ι} {node : NodeId} :
    RaisesOnly OwnError (t.inode node) := by
  simp [InternTable.inode]

theorem own_internOne [DecidableEq κ] (key : κ) (inode : ι) :
    MethodRaises OwnError (InternTable.internOne key inode) :=
  methodRaises_get.bind fun _ => (methodRaises_set _).bind fun _ => methodRaises_pure _

/-- Interning fails as parsing does. -/
theorem own_internAll [DecidableEq κ] {key : α → κ} {parse : α → Outcome ι} {kind : ι → FileKind}
    (hparse : ∀ a, RaisesOnly OwnError (parse a)) (records : List (Str × α)) :
    MethodRaises OwnError (InternTable.internAll key parse kind records) := by
  induction records with
  | nil => exact methodRaises_pure _
  | cons record rest ih =>
    refine (methodRaises_lift (hparse record.2)).bind fun child => ?_
    refine methodRaises_get.bind fun t => (methodRaises_set _).bind fun _ => ?_
    exact ih.bind fun entries => methodRaises_pure _

end Tables

namespace Romfs

variable {src : Source} {r : Romfs}

@[simp] theorem own_readHeader {off : ℕ} : RaisesOnly OwnError (readHeader src off) := by
  simp [readHeader, nulAt, beU32]

/-- A chain of hard links that does not end is reported as corrupt. -/
@[simp] theorem own_followLinks {hops off : ℕ} :
    RaisesOnly OwnError (followLinks src hops off) := by
  induction hops generalizing off with
  | zero => simp [followLinks]
  | succ hops ih => simp [followLinks, ih]

/-- The chain of a directory fails as its headers do. -/
@[simp] theorem own_readChain {bound o : ℕ} : RaisesOnly OwnError (readChain src bound o) := by
  induction bound generalizing o with
  | zero => exact .ok _
  | succ bound ih => simp [readChain, resolvedHeader, ih]

theorem ownErrors : OwnErrors frontend where
  lookup dir name r := by
    show RaisesOnly OwnError (r.lookup dir name)
    simp [lookup, readDir, resolvedHeader]
  metadata node r := by
    show RaisesOnly OwnError (r.metadata node)
    simp [metadata, resolvedHeader]
  readLink node r := by
    show RaisesOnly OwnError (r.readLink node)
    simp [readLink, resolvedHeader]

end Romfs

namespace Cramfs

variable {ρ : Type} {codecs : Codecs ρ} {src : Source}

@[simp] theorem own_parseInode {off : ℕ} : RaisesOnly OwnError (parseInode src off) := by
  simp [parseInode]

/-- A page table fails as its pages do. -/
@[simp] theorem own_readPages {idx out : List UInt8} {total nblocks i start : ℕ} :
    RaisesOnly OwnError (readPages codecs src idx total nblocks i start out) := by
  fun_induction readPages codecs src idx total nblocks i start out with
  | case1 i start out hi ih => simp [ptr, readPage, ih]
  | case2 => exact .ok _

@[simp] theorem own_readWhole {inode : CrInode} :
    RaisesOnly OwnError (readWhole codecs src inode) := by
  simp [readWhole]

/-- A directory fails as its inodes and names do. -/
@[simp] theorem own_readRecords {stop p : ℕ} : RaisesOnly OwnError (readRecords src stop p) := by
  fun_induction readRecords src stop p with
  | case1 p hp ih => simp [ih]
  | case2 => exact .ok _

theorem ownErrors : OwnErrors (frontend codecs) where
  lookup dir name c := by
    show RaisesOnly OwnError (c.lookup dir name)
    simp [lookup, readDir]
  metadata node c := by
    show RaisesOnly OwnError (c.metadata node)
    simp [metadata]
  readLink node c := by
    show RaisesOnly OwnError (c.readLink codecs node)
    simp [readLink]

end Cramfs

namespace Cpio

theorem ownErrors : OwnErrors frontend where
  lookup dir name c := by
    show RaisesOnly OwnError (c.lookup dir name)
    simp [lookup, node]
  metadata id c := by
    show RaisesOnly OwnError (c.metadata id)
    simp [metadata, node]
  readLink id c := by
    show RaisesOnly OwnError (c.readLink id)
    simp [readLink, node, bytes]

end Cpio

namespace SquashFs

variable {ρ : Type} {codecs : Codecs ρ} {vol : Volume}

@[simp] theorem own_readMetaBlock {at_ : ℕ} :
    RaisesOnly OwnError (readMetaBlock codecs vol at_) := by
  simp [readMetaBlock, unpack]

/-- Metadata fails as its blocks do. -/
@[simp] theorem own_readMetaFrom {length next pos : ℕ} {block out : List UInt8} :
    RaisesOnly OwnError (readMetaFrom codecs vol length block next pos out) := by
  fun_induction readMetaFrom codecs vol length block next pos out with
  | case1 block next pos out hout hpos ih =>
    refine own_readMetaBlock.bind fun found _ => ?_
    exact .ite (fun _ => .ok _) fun hblock => ih found.1 found.2 hblock
  | case2 block next pos out hout hpos take ih => exact ih
  | case3 => exact .ok _

@[simp] theorem own_readMetaSpan {absBlock offset length : ℕ} :
    RaisesOnly OwnError (readMetaSpan codecs vol absBlock offset length) := by
  simp [readMetaSpan]

@[simp] theorem own_blockOffsets {here : ℕ} {sizes : List ℕ} :
    RaisesOnly OwnError (blockOffsets here sizes) := by
  induction sizes generalizing here with
  | nil => exact .ok _
  | cons size sizes ih => simp [blockOffsets, ih]

theorem own_parseFile {abs off headLen blocksStart size fragIdx fragOff : ℕ} :
    RaisesOnly OwnError (parseFile codecs vol abs off headLen blocksStart size fragIdx fragOff) := by
  have hsizes : ∀ full n, RaisesOnly OwnError
      ((List.range n).mapM fun i => leU32 full (headLen + i * 4)) :=
    fun full n => .mapM fun i => by simp [leU32]
  simp [parseFile, hsizes]

/-- The inode types are parsed from the same reads. -/
theorem own_parseTyped {itype abs off : ℕ} :
    RaisesOnly OwnError (parseTyped codecs vol itype abs off) := by
  simp [parseTyped, parseBasicDir, parseExtendedDir, parseBasicFile, parseExtendedFile,
    parseSymlink, own_parseFile, leU16, leU32, leU64]

theorem own_parseInode {inodeRef : ℕ} : RaisesOnly OwnError (parseInode codecs vol inodeRef) := by
  simp [parseInode, own_parseTyped, leU16]

/-- A listing that is cut off is corrupt. -/
@[simp] theorem own_listingFrom {listing : List UInt8} {start left p : ℕ} :
    RaisesOnly OwnError (listingFrom listing start left p) := by
  fun_induction listingFrom listing start left p with
  | case1 start left p hentry ih => simp [leU16, ih]
  | case2 start left p hentry hheader ih => simp [leU32, ih]
  | case3 => exact .ok _

theorem own_readDir (dir : NodeId) : MethodRaises OwnError (readDir codecs dir) := by
  refine MethodRaises.bind (fun fs => own_tableInode) fun inode => ?_
  cases inode.body with
  | dir absBlock offset size =>
    refine methodRaises_get.bind fun fs => (methodRaises_lift ?_).bind fun entries => ?_
    · simp [dirEntries]
    · exact (own_internAll (fun _ => own_parseInode) entries).zoom
  | file file => exact methodRaises_throw (by simp)
  | symlink target => exact methodRaises_throw (by simp)
  | other => exact methodRaises_throw (by simp)

theorem ownErrors : OwnErrors (frontend codecs) where
  lookup dir _ := (own_readDir dir).bind fun _ => methodRaises_pure _
  metadata _ := MethodRaises.bind (fun _ => own_tableInode) fun _ => methodRaises_pure _
  readLink _ := by
    refine MethodRaises.bind (fun _ => own_tableInode) fun inode => ?_
    cases inode.body <;> exact methodRaises_pure _

end SquashFs

namespace Udf

variable {vol : Volume}

@[simp] theorem own_readBlock {src : Source} {blockSize lba : ℕ} :
    RaisesOnly OwnError (readBlock src blockSize lba) := by
  simp [readBlock]

@[simp] theorem own_parseExtents {partitionStart adOff lAd stride : ℕ} {buf : List UInt8} :
    RaisesOnly OwnError (parseExtents partitionStart buf adOff lAd stride) := by
  have hextents : ∀ chunks : List (List UInt8),
      RaisesOnly OwnError (chunks.mapM (parseExtent partitionStart)) :=
    fun chunks => .mapM fun c => by simp [parseExtent]
  simp [parseExtents, hextents]

/-- A File Entry is refused for its tag or for what it cuts off. -/
theorem own_readFe {lba : ℕ} : RaisesOnly OwnError (readFe vol lba) := by
  simp [readFe, parseFe, entryLayout, fileData, inlineData, leU16, leU32, leU64]

/-- Extents are read one after another, and the recorded ones can fail. -/
@[simp] theorem own_readAllExtents {total : ℕ} {es : List Extent} {out : List UInt8} :
    RaisesOnly OwnError (readAllExtents vol total es out) := by
  induction es generalizing out with
  | nil => exact .ok _
  | cons e rest ih =>
    refine .ite (fun _ => .ok _) fun _ => RaisesOnly.bind ?_ fun chunk _ => ih
    unfold readExtent
    cases e.lba <;> simp

theorem own_readAll {inode : UdfInode} : RaisesOnly OwnError (readAll vol inode) := by
  unfold readAll
  cases inode.data <;> simp

theorem own_decodeUdfName (fi : List UInt8) : RaisesOnly OwnError (decodeUdfName fi) := by
  unfold decodeUdfName
  split <;> simp

/-- A File Identifier Descriptor is cut off, or its name is not decoded. -/
@[simp] theorem own_parseFidsFrom {partitionStart p : ℕ} {data : List UInt8} :
    RaisesOnly OwnError (parseFidsFrom partitionStart data p) := by
  fun_induction parseFidsFrom partitionStart data p with
  | case1 p hp ih => simp [leU16, leU32, fidEntry, own_decodeUdfName, ih]
  | case2 => exact .ok _

theorem own_readDir (dir : NodeId) : MethodRaises OwnError (readDir dir) := by
  refine MethodRaises.bind (fun _ => own_tableInode) fun inode => ?_
  refine .ite (fun _ => methodRaises_throw (by simp)) fun _ => ?_
  refine methodRaises_get.bind fun u => (methodRaises_lift own_readAll).bind fun data => ?_
  refine (methodRaises_lift own_parseFidsFrom).bind fun fids => ?_
  exact (own_internAll (fun _ => own_readFe) fids).zoom

theorem ownErrors : OwnErrors frontend where
  lookup dir _ := (own_readDir dir).bind fun _ => methodRaises_pure _
  metadata _ := MethodRaises.bind (fun _ => own_tableInode) fun _ => methodRaises_pure _
  readLink _ := methodRaises_pure _

end Udf

namespace RockRidge

@[simp] theorem own_parseSlComponents {comp out : List UInt8} {continues : Bool} :
    RaisesOnly OwnError (parseSlComponents comp out continues) := by
  fun_induction parseSlComponents comp out continues with
  | case1 comp out continues hlen ih =>
    refine .bind .unwrap fun flags _ => .bind .unwrap fun clen _ => ?_
    refine .ite (fun _ => .ok _) fun hfits => ?_
    exact .bind .unwrap fun content _ => ih flags clen hfits content
  | case2 => exact .ok _

theorem own_entry {parser : RrParser} {sig data : List UInt8} :
    RaisesOnly OwnError (parser.entry sig data) := by
  cases data <;> simp [RrParser.entry, le32]

theorem own_continuation {sig data : List UInt8} {next : Option Continuation} :
    RaisesOnly OwnError (continuation sig data next) := by
  simp [continuation, le32]

/-- System use entries are read from memory: what is cut off ends the area. -/
@[simp] theorem own_feedFrom {su : List UInt8} {parser : RrParser} {next : Option Continuation}
    {p : ℕ} : RaisesOnly OwnError (parser.feedFrom su next p) := by
  fun_induction parser.feedFrom su next p with
  | case1 parser next p hp ih =>
    refine .bind .unwrap fun len _ => ?_
    split
    · exact .ok _
    · rename_i hfits
      refine .bind .unwrap fun sig _ => .bind .unwrap fun data _ => ?_
      refine .ite (fun _ => .ok _) fun _ => own_entry.bind fun parser _ => ?_
      exact own_continuation.bind fun next _ => ih len hfits parser next
  | case2 => exact .ok _

end RockRidge

namespace Iso9660

open RockRidge

variable {vol : Volume}

/-- A chain of continuations is refused when it is too long or leaves its block. -/
@[simp] theorem own_parseContinuations {parser : RrParser} {next : Option Continuation}
    {left : ℕ} : RaisesOnly OwnError (parseContinuations vol parser next left) := by
  fun_induction parseContinuations vol parser next left with
  | case1 => exact .ok _
  | case2 => exact .fail (by simp)
  | case3 => exact .fail (by simp)
  | case4 parser ce left hlen ih => simp [readContinuation, RrParser.feed, ih]

@[simp] theorem own_recordInfo {record : List UInt8} {fiLen : ℕ} :
    RaisesOnly OwnError (recordInfo vol record fiLen) := by
  simp [recordInfo, parseRockRidge, RrParser.feed]

@[simp] theorem own_recordAt {buf : List UInt8} {pos len : ℕ} :
    RaisesOnly OwnError (recordAt buf pos len) := by
  simp [recordAt]

theorem own_addExtent {buf fi : List UInt8} {isDir : Bool} {lba size : ℕ} {inode : Inode} :
    RaisesOnly OwnError (addExtent buf fi isDir lba size inode) := by
  simp [addExtent, firstFi]

theorem own_newEntry {dirLba pos lba size : ℕ} {record fi : List UInt8} {isDir : Bool} :
    RaisesOnly OwnError (newEntry vol dirLba pos record fi isDir lba size) := by
  simp [newEntry, fileName, decodeName, decodeNameJoliet]

@[simp] theorem own_readRecord {dirLba pos : ℕ} {buf record fi : List UInt8}
    {pending : Option (Str × Inode)} :
    RaisesOnly OwnError (readRecord vol dirLba buf pos record fi pending) := by
  cases pending <;> simp [readRecord, own_addExtent, own_newEntry, leU32]

@[simp] theorem own_finishScan {pending : Option (Str × Inode)} :
    RaisesOnly OwnError (finishScan pending) := by
  simp [finishScan]

/-- A directory fails as its records do. -/
@[simp] theorem own_entriesFrom {dirLba pos : ℕ} {buf : List UInt8}
    {pending : Option (Str × Inode)} :
    RaisesOnly OwnError (entriesFrom vol dirLba buf pending pos) := by
  fun_induction entriesFrom vol dirLba buf pending pos with
  | case1 pending pos hpos ihPadding ih =>
    refine .bind .unwrap fun len _ => ?_
    split
    · exact .ite (fun _ => own_finishScan) fun hnext => ihPadding hnext
    · rename_i hlen
      refine own_recordAt.bind fun found _ => own_readRecord.bind fun step _ => ?_
      exact (ih len hlen step.2).bind fun rest _ => .ok _
  | case2 => exact own_finishScan

theorem own_dirEntries (dir : NodeId) : MethodRaises OwnError (dirEntries dir) := by
  refine MethodRaises.bind (fun _ => own_tableInode) fun inode => ?_
  refine .ite (fun _ => methodRaises_throw (by simp)) fun _ => ?_
  refine methodRaises_get.bind fun iso => methodRaises_lift ?_
  simp [forEachEntry, readDirExtent]

theorem ownErrors {ρ : Type} {zisofs : Bool} {codecs : Codecs ρ} :
    OwnErrors (frontend zisofs codecs) where
  lookup dir name := by
    refine (own_dirEntries dir).bind fun entries => ?_
    cases entries.find? fun entry => entry.1 = name with
    | none => exact methodRaises_pure _
    | some entry => exact (own_internOne _ _).zoom.bind fun node => methodRaises_pure _
  metadata _ := MethodRaises.bind (fun _ => own_tableInode) fun _ => methodRaises_pure _
  readLink _ := MethodRaises.bind (fun _ => own_tableInode) fun _ => methodRaises_pure _

end Iso9660

namespace Erofs

variable {src : Source} {vol : Volume}

@[simp] theorem own_inodeBytes {off : ℕ} : RaisesOnly OwnError (inodeBytes vol off) := by
  simp [inodeBytes, leU16]

/-- An inode fails as its two reads and its fields do. -/
theorem own_readInode {nid : NodeId} : RaisesOnly OwnError (readInode vol nid) := by
  simp [readInode, inodeOffset, leU16, leU32, leU64]

@[simp] theorem own_readInline {inode : Inode} {fullBytes base stop p : ℕ} :
    RaisesOnly OwnError (readInline vol inode fullBytes base stop p) := by
  fun_induction readInline vol inode fullBytes base stop p with
  | case1 p hp hfull segEnd ih => simp [ih]
  | case2 p hp hfull => simp
  | case3 => exact .ok _

/-- A chunked file fails as its index and its chunks do. -/
@[simp] theorem own_readChunks {chunkbits table stop p : ℕ} :
    RaisesOnly OwnError (readChunks vol chunkbits table stop p) := by
  fun_induction readChunks vol chunkbits table stop p with
  | case1 p hp idx segEnd ih =>
    refine .bind .fits fun _ _ => RaisesOnly.bind ?_ fun seg _ => ih.bind fun rest _ => .ok _
    simp [readChunk]
  | case2 => exact .ok _

theorem own_readFlat {inode : Inode} {off stop : ℕ} :
    RaisesOnly OwnError (readFlat vol inode off stop) := by
  simp [readFlat, readChunked]

@[simp] theorem own_headStart {lcsize i clusterofs : ℕ} {heads : List Head} :
    RaisesOnly OwnError (headStart lcsize heads i clusterofs) := by
  simp [headStart]

@[simp] theorem own_fullEntries {idx0 lcsize i count : ℕ} {heads : List Head} :
    RaisesOnly OwnError (fullEntries src idx0 lcsize i count heads) := by
  induction count generalizing i heads with
  | zero => exact .ok _
  | succ count ih => simp [fullEntries, ih]

/-- The compact index fails with the error of the group that is cut off. -/
theorem own_readGroups {size per : ℕ} {hper : 0 < per} {what : String}
    {unpack : List UInt8 → ℕ → Outcome (List ℕ)} (hwhat : OwnError (.corrupt what))
    (hunpack : ∀ group n, RaisesOnly OwnError (unpack group n)) {buf : List UInt8}
    {pos rid remaining : ℕ} :
    RaisesOnly OwnError (readGroups size per hper what unpack buf pos rid remaining) := by
  fun_induction readGroups size per hper what unpack buf pos rid remaining with
  | case1 => exact .ok _
  | case2 pos rid remaining hleft ih =>
    refine .bind (.okOr hwhat) fun group _ => (hunpack _ _).bind fun codes _ => ?_
    exact ih.bind fun rest _ => .ok _

theorem own_readBitsLsb {buf : List UInt8} {bitPos : ℕ} :
    RaisesOnly OwnError (readBitsLsb buf bitPos) :=
  .foldlM fun v k => by simp

theorem own_readEntries {buf : List UInt8} {c4i c2b c4f : ℕ} :
    RaisesOnly OwnError (readEntries buf c4i c2b c4f) := by
  have h4b : ∀ pos rid n, RaisesOnly OwnError (read4bGroups buf pos rid n) :=
    fun pos rid n => own_readGroups (by simp) fun _ _ => .ok _
  have h2b : ∀ pos rid n, RaisesOnly OwnError (read2bPacks buf pos rid n) :=
    fun pos rid n => own_readGroups (by simp) fun _ _ => .mapM fun _ => own_readBitsLsb
  simp [readEntries, h4b, h2b]

theorem own_resolveEntry {lcsize : ℕ} {big : Bool} {st : Resolving} {e : RawEntry} {i : ℕ} :
    RaisesOnly OwnError (resolveEntry lcsize big st e i) := by
  unfold resolveEntry
  cases st.curHead <;> simp

@[simp] theorem own_placeBig {blk : ℕ} {heads : List Head} :
    RaisesOnly OwnError (placeBig blk heads) := by
  fun_induction placeBig blk heads with
  | case1 => exact .ok _
  | case2 => exact .ok _
  | case3 blk head next rest ih => simp [ih]

theorem own_resolveCompactHeads {raw : List RawEntry} {lcsize advise : ℕ} :
    RaisesOnly OwnError (resolveCompactHeads raw lcsize advise) := by
  unfold resolveCompactHeads
  refine (RaisesOnly.foldlM fun st entry => own_resolveEntry).bind fun st _ => ?_
  simp

theorem own_buildHeadsCompact {ebase lcsize nLc advise : ℕ} :
    RaisesOnly OwnError (buildHeadsCompact src ebase lcsize nLc advise) := by
  simp [buildHeadsCompact, own_readEntries, own_resolveCompactHeads]

theorem own_readHeads {inode : Inode} : RaisesOnly OwnError (readHeads vol inode) := by
  simp [readHeads, mapHeaderOff, readMapHeader, buildHeads, buildHeadsFull, own_buildHeadsCompact]

section Decode

variable {ρ : Type} {codecs : Codecs ρ}

/-- The error of a deflate pcluster is one of the tries, or the one it starts with. -/
theorem own_deflateStarts {span : List UInt8} {outlen : ℕ} {last : FoldError}
    {starts : List ℕ} (hlast : OwnError last) :
    RaisesOnly OwnError (deflateStarts codecs span outlen last starts) := by
  have hown : ∀ start, RaisesOnly OwnError (decode codecs .deflate (span.drop start) outlen) :=
    fun start => own_decode
  fun_induction deflateStarts codecs span outlen last starts with
  | case1 last => exact .fail hlast
  | case2 last start starts v hdecode hlen => exact .ok v
  | case3 last start starts v hdecode hlen ih => exact ih hlast
  | case4 last start starts what hdecode => exact .fail (hown start _ hdecode)
  | case5 last start starts size max hdecode => exact .fail (hown start _ hdecode)
  | case6 last start starts e hrefusal hlarge hdecode ih => exact ih (hown start e hdecode)
  | case7 last start starts fault hrefusal hlarge hreported hdecode =>
    intro e he
    exact absurd (Except.error.inj he) (hreported e)

theorem own_decodePcluster {ty : LcType} {algo outlen : ℕ} {span priorOut : List UInt8}
    {lzmaDict : Option ℕ} {lz4ZeroPadding : Bool} :
    RaisesOnly OwnError
      (decodePcluster codecs ty algo span outlen priorOut lzmaDict lz4ZeroPadding) := by
  have hdeflate : RaisesOnly OwnError (deflatePcluster codecs span outlen) :=
    own_deflateStarts (by simp)
  cases ty <;> simp [decodePcluster, decodeHead, lz4Pcluster, lz4Start, zstdPcluster,
    lzmaPcluster, hdeflate]

/-- A file fails as the first pcluster that is not decoded. -/
theorem own_decodeHeads {hdr : MapHeader} {iSize : ℕ} {out : List UInt8} {heads : List Head} :
    RaisesOnly OwnError (decodeHeads codecs vol hdr iSize out heads) := by
  induction heads generalizing out with
  | nil => exact .ok _
  | cons h rest ih => simp [decodeHeads, decodeOwn, readSpan, own_decodePcluster, ih]

theorem own_decodeInode {inode : Inode} : RaisesOnly OwnError (decodeInode codecs vol inode) :=
  own_readHeads.bind fun _ _ => own_decodeHeads

theorem own_parseInode (nid : NodeId) : MethodRaises OwnError (parseInode nid) := by
  refine methodRaises_get.bind fun fs => (methodRaises_lift ?_).bind fun fs => methodRaises_set _
  exact .ite (fun _ => .ok _) fun _ => own_readInode.bind fun inode _ => .ok _

theorem own_inode (nid : NodeId) : MethodRaises OwnError (inode nid) :=
  methodRaises_get.bind fun fs => methodRaises_lift (by simp)

theorem own_materializeCompressed (nid : NodeId) :
    MethodRaises OwnError (materializeCompressed codecs nid) := by
  refine methodRaises_get.bind fun fs => .ite (fun _ => methodRaises_pure _) fun _ => ?_
  refine (own_inode nid).bind fun inode => (methodRaises_lift own_decodeInode).bind fun out => ?_
  exact methodRaises_set _

/-- Data fails as its layout does. -/
theorem own_readInodeData (nid : NodeId) (off : ℕ) (buf : List UInt8) :
    MethodRaises OwnError (readInodeData codecs nid off buf) := by
  refine (own_inode nid).bind fun inode => .ite (fun _ => methodRaises_pure _) fun _ => ?_
  refine (methodRaises_lift .fits).bind fun asked => MethodRaises.bind ?_ fun seg => methodRaises_pure _
  refine .ite (fun _ => ?_) fun _ => methodRaises_get.bind fun fs => methodRaises_lift own_readFlat
  refine (own_materializeCompressed nid).bind fun _ => methodRaises_get.bind fun fs => ?_
  refine (methodRaises_lift ?_).bind fun data => methodRaises_lift ?_
  · simp
  · simp

theorem own_dirent {block : List UInt8} {count i : ℕ} :
    RaisesOnly OwnError (dirent block count i) := by
  by_cases hlast : i + 1 < count <;> simp [dirent, hlast, leU64, leU16]

theorem own_parseDirData {data : List UInt8} : RaisesOnly OwnError (parseDirData vol data) := by
  fun_induction parseDirData vol data with
  | case1 => exact .ok _
  | case2 data hdata ih =>
    have hentries : ∀ count, RaisesOnly OwnError
        ((List.range count).mapM (dirent (data.take vol.blockSize) count)) :=
      fun count => .mapM fun _ => own_dirent
    simp [parseDirBlock, leU16, hentries, ih]

theorem own_readDir (dir : NodeId) : MethodRaises OwnError (readDir codecs dir) := by
  refine (own_parseInode dir).bind fun _ => (own_inode dir).bind fun inode => ?_
  refine .ite (fun _ => methodRaises_throw (by simp)) fun _ => ?_
  refine (methodRaises_lift own_checkedFullReadLen).bind fun size => ?_
  refine (own_readInodeData dir 0 _).bind fun data => methodRaises_get.bind fun fs => ?_
  exact methodRaises_lift own_parseDirData

theorem ownErrors {verifier : Verifier} : OwnErrors (frontend codecs verifier) where
  lookup dir _ := (own_readDir dir).bind fun _ => methodRaises_pure _
  metadata node :=
    (own_parseInode node).bind fun _ => (own_inode node).bind fun _ => methodRaises_pure _
  readLink node := by
    refine (own_parseInode node).bind fun _ => (own_inode node).bind fun inode => ?_
    refine .ite (fun _ => methodRaises_pure _) fun _ => ?_
    refine (methodRaises_lift own_checkedFullReadLen).bind fun len => ?_
    exact (own_readInodeData node 0 _).bind fun target => methodRaises_pure _

end Decode

end Erofs

end Lamfold
