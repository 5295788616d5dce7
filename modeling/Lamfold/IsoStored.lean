import Lamfold.IsoDescriptors
import Lamfold.RockRidgeRecords
import Lamfold.TableFiles
import Lamfold.ZisofsTable

/-!
Whole ISO 9660 volumes. A volume stores a tree of files when a directory is an extent of records
with a chain of them for each entry. The first record of a chain has the name, as a plain or a
Joliet identifier, which Rock Ridge replaces; it says what the file is, and with the others where
its data lie. A compressed file is stored as a table of pointers and blocks, each a stream that
inflates to its share of the data, or a hole in place of zeros.
-/
namespace Lamfold.Iso9660

open Effects Bytes Utf8 FileGraph RockRidge

/-- How the characters of an identifier stand for a name: a file may have a dot without an
extension, and a version. -/
inductive Versioned : Bool → Str → Str → Prop
  | dir (name : Str) : Versioned true name name
  | file {name dot version : Str} (hname : 0x3B ∉ name)
      (hdot : dot = [0x2E] ∨ dot = [] ∧ name.getLast? ≠ some 0x2E)
      (hversion : version = [] ∨ ∃ digits, version = 0x3B :: digits) :
      Versioned false name (name ++ dot ++ version)

theorem baseName_versioned {name dot version : Str} (hname : 0x3B ∉ name)
    (hdot : dot = [0x2E] ∨ dot = [] ∧ name.getLast? ≠ some 0x2E)
    (hversion : version = [] ∨ ∃ digits, version = 0x3B :: digits) :
    baseName (name ++ dot ++ version) = name := by
  have hplain : ∀ c ∈ name ++ dot, decide (c ≠ 0x3B) = true := by
    intro c hc
    rw [decide_eq_true_eq]
    rintro rfl
    rcases List.mem_append.mp hc with hc | hc
    · exact hname hc
    · rcases hdot with rfl | ⟨rfl, -⟩
      · exact absurd hc (by decide)
      · cases hc
  have hrest : version.takeWhile (· ≠ 0x3B) = [] := by
    rcases hversion with rfl | ⟨digits, rfl⟩
    · rfl
    · rw [List.takeWhile_cons_of_neg (by decide)]
  have hbase : (name ++ dot ++ version).takeWhile (· ≠ 0x3B) = name ++ dot := by
    rw [List.takeWhile_append_of_pos hplain, hrest, List.append_nil]
  unfold baseName
  rw [hbase]
  dsimp only
  rcases hdot with rfl | ⟨rfl, hlast⟩
  · rw [if_pos List.getLast?_concat, List.dropLast_concat]
  · rw [List.append_nil, if_neg hlast]

/-- How the bytes of an identifier stand for a name. -/
inductive NamedBy (isDir : Bool) (name : Str) : Bool → List UInt8 → Prop
  | plain {fi : List UInt8} (hutf8 : isUtf8 fi = true) (hfi : Versioned isDir name fi) :
      NamedBy isDir name false fi
  | joliet {chars : List ℕ} (hchars : ∀ c ∈ chars, IsScalar c)
      (hfi : Versioned isDir name (chars.flatMap ofScalar)) :
      NamedBy isDir name true ((chars.flatMap unitsOf).flatMap (beBytes 2))

theorem decodeUtf16_units {chars : List ℕ} (hchars : ∀ c ∈ chars, IsScalar c) :
    decodeUtf16 ((chunksExact 2 ((chars.flatMap unitsOf).flatMap (beBytes 2))).map beNat) =
      some chars := by
  have hpieces : ∀ bytes ∈ (chars.flatMap unitsOf).map (beBytes 2), bytes.length = 2 := by
    intro bytes hbytes
    obtain ⟨u, -, rfl⟩ := List.mem_map.mp hbytes
    exact beBytes_length 2 u
  have hunits : ((chars.flatMap unitsOf).map (beBytes 2)).map beNat = chars.flatMap unitsOf := by
    rw [List.map_map]
    refine (List.map_congr_left fun u hu => ?_).trans (List.map_id _)
    obtain ⟨c, hc, hu⟩ := List.mem_flatMap.mp hu
    exact beNat_beBytes (unitsOf_lt (hchars c hc) hu)
  rw [List.flatMap_def, chunksExact_flatten (by omega) hpieces, hunits,
    decodeUtf16_unitsOf hchars]

theorem Versioned.baseName {isDir : Bool} {name raw : Str} (h : Versioned isDir name raw) :
    (if isDir then raw else Iso9660.baseName raw) = name := by
  cases h with
  | dir => rfl
  | file hname hdot hversion => exact baseName_versioned hname hdot hversion

theorem NamedBy.fileName {vol : Volume} {isDir : Bool} {name : Str} {fi : List UInt8}
    (h : NamedBy isDir name vol.joliet fi) : Iso9660.fileName vol fi isDir = .ok name := by
  unfold Iso9660.fileName
  generalize vol.joliet = joliet at h ⊢
  cases h with
  | plain hutf8 hfi =>
    have hraw : fromUtf8 fi = some fi := if_pos hutf8
    rw [if_neg (by decide), decodeName, hraw, okOr, ok_bind]
    exact congrArg Except.ok hfi.baseName
  | joliet hchars hfi =>
    rw [if_pos rfl, decodeNameJoliet, decodeUtf16_units hchars, okOr, ok_bind]
    exact congrArg Except.ok hfi.baseName

/-- What the System Use area of a record says: nothing without Rock Ridge or when the record
ends before it, else what the entries of its areas say. -/
inductive Extra (vol : Volume) (r : Record) : Option Str → Option Target → Option Zisofs → Prop
  | none (h : vol.rockRidge = false ∨ r.len < suStart r.fi.length) : Extra vol r none none none
  | areas {record : Area} {areas : List Area} {name : Option Str} {target : Option Target}
      {zi : Option Zisofs} (hrr : vol.rockRidge = true) (hroom : suStart r.fi.length ≤ r.len)
      (harea : r.systemUse.drop vol.suspSkip = record.encode)
      (hlinked : Linked vol record areas) (hmax : areas.length ≤ maxContinuations)
      (hsaid : Says ((record :: areas).flatMap Area.entries) name target zi) :
      Extra vol r name target zi

theorem Extra.recordInfo {vol : Volume} {r : Record} {name : Option Str} {target : Option Target}
    {zi : Option Zisofs} (h : Extra vol r name target zi) :
    ∃ info, Iso9660.recordInfo vol r.encode r.fi.length = .ok info ∧ info.name = name ∧
      info.symlinkTarget = target.map Target.text ∧ info.zisofs = zi := by
  unfold Iso9660.recordInfo
  rw [r.encode_length]
  cases h with
  | none h =>
    have hno : ¬(vol.rockRidge = true ∧ suStart r.fi.length ≤ r.len) := by
      rintro ⟨hrr, hroom⟩
      rcases h with h | h
      · rw [hrr] at h
        cases h
      · omega
    exact ⟨_, if_neg hno, rfl, rfl, rfl⟩
  | areas hrr hroom harea hlinked hmax hsaid =>
    rw [if_pos ⟨hrr, hroom⟩, r.drop_suStart, harea]
    exact parseRockRidge_said hlinked hmax hsaid

/-- A record gives its file a name, and may make it a link or a compressed file. -/
structure Recorded (vol : Volume) (r : Record) (name : Str) (target : Option Target)
    (zi : Option Zisofs) : Prop where
  recorded : ∃ plain better, NamedBy r.isDir plain vol.joliet r.fi ∧ Extra vol r better target zi ∧
    name = better.getD plain

/-- The node that a record at `pos` of a directory starts. -/
def Record.node (r : Record) (dirLba pos : ℕ) (target : Option Target) (zi : Option Zisofs) :
    Inode where
  key := (dirLba, pos)
  lba := r.lba
  size := r.size
  extents := [r.extent]
  kind := if target.isSome then .symlink else if r.isDir then .directory else .regular
  linkTarget := target.map Target.text
  zisofs := zi

theorem Recorded.start {vol : Volume} {r : Record} {name : Str} {target : Option Target}
    {zi : Option Zisofs} (h : Recorded vol r name target zi) (dirLba pos : ℕ) :
    r.start vol dirLba pos = .ok (name, r.node dirLba pos target zi) := by
  obtain ⟨plain, better, hplain, hextra, rfl⟩ := h.recorded
  obtain ⟨info, hinfo, rfl, htarget, rfl⟩ := hextra.recordInfo
  have hsome : info.symlinkTarget.isSome = target.isSome := by
    rw [htarget, Option.isSome_map]
  unfold Record.start Iso9660.newEntry
  rw [hplain.fileName, lift_ok_bind, hinfo, ok_bind, hsome, htarget]
  rfl

section Compressed

variable {ρ : Type} (codecs : Codecs ρ) (src : Source)

/-- The bytes of a block between two pointers, from the start of the file on. -/
inductive BlockStored (start p : ℕ) : ℕ → List UInt8 → Prop
  | hole (n : ℕ) : BlockStored start p p (List.replicate n 0)
  | deflated {comp data : List UInt8} (hne : comp ≠ [])
      (hcomp : comp.length ≤ maxBootFileBytes) (hdata : data.length ≤ maxDecompressedBlockBytes)
      (hstored : slice src.content (start + p) comp.length = some comp)
      (hinflate : codecs.inflateZlib comp data.length = some data) :
      BlockStored start p (p + comp.length) data

/-- A file is stored compressed from `start` on: the header, of which only the magic is read, the
pointers, and between each two of them the next block of the data. -/
structure Deflated (start : ℕ) (zi : Zisofs) (data : List UInt8) (ptrs : List ℕ) : Prop where
  size : zi.uncompressedSize = data.length
  log2_lt : zi.blockSizeLog2 < 31
  count : ptrs.length = divCeil data.length (1 <<< zi.blockSizeLog2) + 1
  ptrs_lt : ∀ p ∈ ptrs, p < 2 ^ 32
  cap : 16 + ptrs.length * 4 ≤ maxBootFileBytes
  head : ∃ header, header.length = 8 ∧ slice src.content start (16 + ptrs.length * 4) =
    some (zisofsMagic ++ header ++ ptrs.flatMap (leBytes 4))
  blocks : ∀ blk p q, ptrs[blk]? = some p → ptrs[blk + 1]? = some q →
    BlockStored codecs src start p q
      ((data.drop (blk * 1 <<< zi.blockSizeLog2)).take (1 <<< zi.blockSizeLog2))

variable {codecs src} {start p q : ℕ} {zi : Zisofs} {data head : List UInt8} {ptrs : List ℕ}
  {vol : Volume}

theorem BlockStored.zisofsBlock (h : BlockStored codecs vol.src start p q data) :
    Iso9660.zisofsBlock codecs vol start p q data.length = .ok data := by
  unfold Iso9660.zisofsBlock
  cases h with
  | hole n =>
    rw [if_pos (Nat.le_refl p), List.length_replicate]
    rfl
  | @deflated comp data hne hcomp hdata hstored hinflate =>
    have hpos := List.length_pos_iff.mpr hne
    have hin := (slice_eq_some.mp hstored).1
    have hlt := vol.src.length_lt
    have hlen : p + comp.length - p = comp.length := Nat.add_sub_cancel_left ..
    have hclen : checkedFullReadLen comp.length = .ok comp.length :=
      checkedFullReadLen_eq_ok.mpr ⟨hcomp, rfl⟩
    have hat : u64 (start + p) = .ok (start + p) := fits_eq_ok.mpr ⟨by omega, rfl⟩
    have hblock : checkedBlockLen data.length = .ok data.length :=
      checkedBlockLen_eq_ok.mpr ⟨hdata, rfl⟩
    rw [if_neg (by omega), hlen, hclen, lift_ok_bind, hat, lift_ok_bind,
      Source.readAt_eq_ok.mpr hstored, ok_bind, decode, hblock, ok_bind, hinflate]
    rfl

/-- Pointer `i` is found behind the header. -/
theorem blockPtr_table {front : List UInt8} (hfront : front.length = 16)
    (hlt : ∀ p ∈ ptrs, p < 2 ^ 32) {i : ℕ} (hi : ptrs[i]? = some p) :
    blockPtr (front ++ ptrs.flatMap (leBytes 4)) i = .ok p := by
  have hsplit : ptrs = ptrs.take i ++ p :: ptrs.drop (i + 1) := by
    obtain ⟨hin, rfl⟩ := List.getElem?_eq_some_iff.mp hi
    rw [List.getElem_cons_drop, List.take_append_drop]
  have hbefore : ((ptrs.take i).flatMap (leBytes 4)).length = i * 4 := by
    have hin := (List.getElem?_eq_some_iff.mp hi).1
    have hle : i ≤ ptrs.length := Nat.le_of_lt hin
    rw [List.length_flatMap]
    simp [leBytes_length, hle]
  have hfield : slice (front ++ ptrs.flatMap (leBytes 4)) (16 + i * 4) 4 = some (leBytes 4 p) := by
    refine @slice_of_append _ _ (front ++ (ptrs.take i).flatMap (leBytes 4)) (leBytes 4 p)
      ((ptrs.drop (i + 1)).flatMap (leBytes 4)) _ _ ?_ ?_ (leBytes_length 4 p).symm
    · nth_rewrite 1 [hsplit]
      simp only [List.flatMap_append, List.flatMap_cons, List.append_assoc]
    · rw [List.length_append, hfront, hbefore]
  unfold blockPtr
  rw [hfield, unwrap, ok_bind, leNat_leBytes (hlt p (List.mem_of_getElem? hi))]
  rfl

/-- When each block that begins before the end of the data is its part of them, a window of the
data is read. -/
theorem zisofsFrom_window {blockSize stop cur : ℕ} {out : List UInt8} (hpos : 0 < blockSize)
    (hblocks : ∀ blk, blk * blockSize < data.length → ∃ p q, blockPtr head blk = .ok p ∧
      blockPtr head (blk + 1) = .ok q ∧
      Iso9660.zisofsBlock codecs vol start p q (min blockSize (data.length - blk * blockSize)) =
        .ok ((data.drop (blk * blockSize)).take blockSize))
    (hstop : stop ≤ data.length) (hlen : data.length < 2 ^ 64) :
    zisofsFrom codecs vol head start blockSize data.length stop cur out =
      .ok (out ++ (data.drop cur).take (stop - cur)) := by
  induction hleft : stop - cur using Nat.strong_induction_on generalizing cur out with
  | _ left ih =>
    rw [zisofsFrom]
    by_cases hcur : cur < stop
    · obtain ⟨blk, hblk⟩ : ∃ blk, blk = cur / blockSize := ⟨_, rfl⟩
      have hsplit := Nat.div_add_mod cur blockSize
      have hmod := Nat.mod_lt cur hpos
      rw [← hblk, Nat.mul_comm] at hsplit
      obtain ⟨p, q, hp, hq, hblock⟩ := hblocks blk (by omega)
      have hbase : u64 (blk * blockSize) = .ok (blk * blockSize) := fits_eq_ok.mpr ⟨by omega, rfl⟩
      have hrest : minus data.length (blk * blockSize) = .ok (data.length - blk * blockSize) :=
        minus_eq_ok.mpr ⟨by omega, rfl⟩
      have hin : minus cur (blk * blockSize) = .ok (cur % blockSize) :=
        minus_eq_ok.mpr ⟨by omega, by omega⟩
      obtain ⟨take, htake⟩ : ∃ take, take =
          min (((data.drop (blk * blockSize)).take blockSize).length - cur % blockSize)
            (stop - cur) := ⟨_, rfl⟩
      have hblockLen : ((data.drop (blk * blockSize)).take blockSize).length =
          min blockSize (data.length - blk * blockSize) := by
        rw [List.length_take, List.length_drop]
      have hbytes : slice ((data.drop (blk * blockSize)).take blockSize) (cur % blockSize) take =
          some ((data.drop cur).take take) := by
        refine slice_eq_some.mpr ⟨by omega, ?_⟩
        rw [List.drop_take, List.drop_drop, List.take_take, Nat.min_eq_left (by omega), hsplit]
      have hmore : zisofsFrom codecs vol head start blockSize data.length stop (cur + take)
          (out ++ (data.drop cur).take take) = _ := ih (stop - (cur + take)) (by omega) rfl
      rw [if_pos hcur]
      dsimp only
      rw [← hblk, hbase, lift_ok_bind, hrest, lift_ok_bind, hp, lift_ok_bind, hq, lift_ok_bind,
        hblock, ok_bind, hin, lift_ok_bind, ← htake, if_neg (by omega), hbytes, unwrap,
        lift_ok_bind, hmore, List.append_assoc]
      have hjoin : (data.drop cur).take left =
          (data.drop cur).take take ++ (data.drop (cur + take)).take (stop - (cur + take)) := by
        rw [← List.drop_drop, ← List.take_add]
        congr 1
        omega
      rw [hjoin]
    · rw [if_neg hcur, ← hleft, Nat.sub_eq_zero_of_le (by omega), List.take_zero, List.append_nil]
      rfl

/-- A compressed file is read in windows of its data. -/
theorem Deflated.readZisofs {inode : Inode} (hvol : vol.Bounded) (hinode : inode.Bounded)
    (hzi : inode.zisofs = some zi)
    (h : Deflated codecs vol.src (inode.lba * vol.blockSize) zi data ptrs) (off : ℕ)
    (buf : List UInt8) :
    Iso9660.readZisofs codecs vol inode zi off buf = .ok (windowOf data off buf) := by
  by_cases hpast : off ≥ zi.uncompressedSize
  · unfold Iso9660.readZisofs
    rw [if_pos hpast, windowOf_past (h.size ▸ hpast)]
    rfl
  · obtain ⟨header, hheader, hhead⟩ := h.head
    have hcount := h.count
    have hbytes := h.size
    have hsize := hinode.zisofs_lt zi hzi
    have hpos : 0 < 1 <<< zi.blockSizeLog2 := by
      rw [Nat.one_shiftLeft]
      exact Nat.two_pow_pos _
    have hfront : (zisofsMagic ++ header).length = 16 := by
      rw [List.length_append, hheader]
      rfl
    have hcap : checkedFullReadLen (16 + ptrs.length * 4) = .ok (16 + ptrs.length * 4) :=
      checkedFullReadLen_eq_ok.mpr ⟨h.cap, rfl⟩
    have hmagic : slice (zisofsMagic ++ header ++ ptrs.flatMap (leBytes 4)) 0 8 = some zisofsMagic :=
      @slice_of_append _ _ [] zisofsMagic (header ++ ptrs.flatMap (leBytes 4)) _ _
        (List.append_assoc ..) rfl rfl
    have hblocks : ∀ blk, blk * 1 <<< zi.blockSizeLog2 < data.length → ∃ p q,
        blockPtr (zisofsMagic ++ header ++ ptrs.flatMap (leBytes 4)) blk = .ok p ∧
        blockPtr (zisofsMagic ++ header ++ ptrs.flatMap (leBytes 4)) (blk + 1) = .ok q ∧
        Iso9660.zisofsBlock codecs vol (inode.lba * vol.blockSize) p q
          (min (1 <<< zi.blockSizeLog2) (data.length - blk * 1 <<< zi.blockSizeLog2)) =
            .ok ((data.drop (blk * 1 <<< zi.blockSizeLog2)).take (1 <<< zi.blockSizeLog2)) := by
      intro blk hblk
      have hlt : blk + 1 < ptrs.length := by
        rw [hcount]
        exact Nat.succ_lt_succ ((lt_divCeil_iff hpos).mpr hblk)
      have hp : ptrs[blk]? = some ptrs[blk] := List.getElem?_eq_getElem (by omega)
      have hq : ptrs[blk + 1]? = some ptrs[blk + 1] := List.getElem?_eq_getElem hlt
      have hblock := (h.blocks blk _ _ hp hq).zisofsBlock
      rw [List.length_take, List.length_drop] at hblock
      exact ⟨_, _, blockPtr_table hfront h.ptrs_lt hp, blockPtr_table hfront h.ptrs_lt hq, hblock⟩
    have hwindow := @zisofsFrom_window _ codecs (inode.lba * vol.blockSize) data _ vol
      (1 <<< zi.blockSizeLog2) (off + min buf.length (data.length - off)) off [] hpos hblocks
      (by omega) (by omega)
    rw [readZisofs_eq hvol hinode hzi hpast (Nat.not_le.mpr h.log2_lt), h.size, ← hcount, hcap,
      ok_bind, Source.readAt_eq_ok.mpr hhead, ok_bind, hmagic, unwrap, ok_bind,
      if_neg (not_not.mpr rfl), hwindow, ok_bind, windowOf_eq rfl]
    have hlen : ((data.drop off).take (min buf.length (data.length - off))).length =
        min buf.length (data.length - off) := by
      rw [List.length_take, List.length_drop]
      omega
    rw [List.nil_append, Nat.add_sub_cancel_left, hlen]
    rfl

end Compressed

/-- The bytes of an extent. -/
def ExtentStored (vol : Volume) (e : ℕ × ℕ) (chunk : List UInt8) : Prop :=
  slice vol.src.content (e.1 * vol.blockSize) e.2 = some chunk

/-- `readPlain` reads this of an extent. -/
def readExtent (vol : Volume) (e : ℕ × ℕ) (within n : ℕ) : Outcome (List UInt8) := do
  let start ← u64 (e.1 * vol.blockSize)
  let at_ ← u64 (start + within)
  vol.src.readAt at_ n

theorem ExtentStored.supplies {vol : Volume} {e : ℕ × ℕ} {chunk : List UInt8}
    (h : ExtentStored vol e chunk) : Supplies Prod.snd (readExtent vol) e chunk where
  length := slice_length h
  read {intra n} hin := by
    have hlen := slice_length h
    have hslice : slice vol.src.content (e.1 * vol.blockSize) chunk.length = some chunk := by
      rw [hlen]
      exact h
    have hle := (slice_eq_some.mp hslice).1
    have hlt := vol.src.length_lt
    have hstart : u64 (e.1 * vol.blockSize) = .ok _ := fits_eq_ok.mpr ⟨by omega, rfl⟩
    have hat : u64 (e.1 * vol.blockSize + intra) = .ok _ := fits_eq_ok.mpr ⟨by omega, rfl⟩
    unfold readExtent
    rw [hstart, ok_bind, hat, ok_bind, Source.readAt_part hslice hin]

/-- A file in extents is read in windows of their bytes. -/
theorem readPlain_stored {vol : Volume} {inode : Inode} (hinode : inode.Bounded)
    {chunks : List (List UInt8)} (hchunks : List.Forall₂ (ExtentStored vol) inode.extents chunks)
    (off : ℕ) (buf : List UInt8) :
    readPlain vol inode off buf = .ok (windowOf chunks.flatten off buf) := by
  have hsupplies := hchunks.imp fun _ _ hstored => ExtentStored.supplies hstored
  have hsize : inode.size = chunks.flatten.length := hinode.size_eq.trans (Supplies.totalLen hsupplies)
  have hlt := hinode.size_lt
  unfold readPlain
  by_cases hpast : off ≥ inode.size
  · rw [if_pos hpast, windowOf_past (hsize ▸ hpast)]
    rfl
  · have hread : readExtents Prod.snd (readExtent vol) off (min buf.length (inode.size - off))
        inode.extents 0 [] = _ :=
      readExtents_supplied hsupplies (by omega) (by omega) (.inl (Nat.zero_le _))
    rw [if_neg hpast]
    change (do
      let data ← readExtents Prod.snd (readExtent vol) off (min buf.length (inode.size - off))
        inode.extents 0 []
      return (data.length, overwrite buf 0 data)) = _
    rw [hread, ok_bind, windowOf_eq rfl, List.nil_append, List.length_nil, Nat.sub_zero, Nat.add_zero,
      Nat.sub_zero, hsize, List.length_take, List.length_drop, Nat.min_eq_left (by omega)]
    rfl

section Volumes

variable {ρ ι : Type} (zisofs : Bool) (codecs : Codecs ρ) (src : Source) (g : Files ι)
  (inode : ι → Inode)

/-- The chain of records of a file in a directory at block `dirLba`; the first one has its name. -/
structure EntryOf (vol : Volume) (dirLba : ℕ) (entry : Str × ι) (chain : List (ℕ × Record)) :
    Prop where
  isChain : IsChain chain
  count : chain.length ≤ maxExtents
  first : ∃ pos r rest target zi, chain = (pos, r) :: rest ∧ Recorded vol r entry.1 target zi ∧
    inode entry.2 = (r.node dirLba pos target zi).gathered chain

/-- The node of an item, with its data. -/
inductive InodeOf (vol : Volume) (node : Inode) : Item Str (List UInt8) ι → Prop
  | dir {entries : List (Str × ι)} {chains : List (List (ℕ × Record))} {buf : List UInt8}
      (hkind : node.kind = .directory) (hcap : node.size ≤ maxBootFileBytes)
      (hextent : slice vol.src.content (node.lba * vol.blockSize) node.size = some buf)
      (hlaid : Laid vol.blockSize 0 buf chains.flatten)
      (hentries : List.Forall₂ (EntryOf inode vol node.lba) entries chains) :
      InodeOf vol node (.dir entries)
  | file {chunks : List (List UInt8)} (hkind : node.kind = .regular) (hplain : node.zisofs = none)
      (hchunks : List.Forall₂ (ExtentStored vol) node.extents chunks) :
      InodeOf vol node (.file chunks.flatten)
  | compressed {data : List UInt8} {zi : Zisofs} {ptrs : List ℕ} (hkind : node.kind = .regular)
      (hzi : node.zisofs = some zi) (hfeature : zisofs = true)
      (hdata : Deflated codecs vol.src (node.lba * vol.blockSize) zi data ptrs) :
      InodeOf vol node (.file data)
  | link {target : List UInt8} (hkind : node.kind = .symlink)
      (htarget : node.linkTarget = some target) : InodeOf vol node (.link target)

/-- The volume of a layout stores the files, each under its node, and every file but the root in
a directory. -/
structure Stores (layout : Layout) : Prop where
  starts : layout.Starts src
  root : inode g.root = layout.root
  listed : ∀ i, i = g.root ∨ ∃ j entries name, g.item j = .dir entries ∧ (name, i) ∈ entries
  files : ∀ i, InodeOf zisofs codecs inode (layout.volume src) (inode i) (g.item i)

variable {zisofs codecs src g inode} {layout : Layout} {vol : Volume} {i : ι} {node : Inode}

theorem EntryOf.chainEntry {dirLba : ℕ} {entry : Str × ι} {chain : List (ℕ × Record)}
    (h : EntryOf inode vol dirLba entry chain) :
    ChainEntry vol dirLba chain (entry.1, inode entry.2) := by
  obtain ⟨pos, r, rest, target, zi, rfl, hrecorded, hnode⟩ := h.first
  exact ⟨(pos, r), rest, _, rfl, hrecorded.start dirLba pos, hnode⟩

/-- The records of a directory are read to its entries. -/
theorem InodeOf.entries {entries : List (Str × ι)}
    (h : InodeOf zisofs codecs inode vol node (.dir entries)) :
    forEachEntry vol node = .ok (entries.map fun entry => (entry.1, inode entry.2)) := by
  cases h with
  | @dir _ chains buf hkind hcap hextent hlaid hentries =>
    have hchains : ∀ c ∈ chains, IsChain c ∧ c.length ≤ maxExtents :=
      ((List.forall₂_and_left _ _).mp
        (List.Forall₂.flip (hentries.imp fun _ _ h => ⟨⟨h.isChain, h.count⟩, h⟩))).1
    refine forEachEntry_chains (readDirExtent_of_slice hcap hextent) hlaid hchains ?_
    exact List.forall₂_map_right_iff.mpr (List.Forall₂.flip (hentries.imp fun _ _ h => h.chainEntry))

theorem InodeOf.kind_eq (h : InodeOf zisofs codecs inode vol node (g.item i)) :
    node.kind = g.kind i := by
  unfold Files.kind
  generalize g.item i = item at h
  cases h with
  | dir hkind => exact hkind
  | file hkind => exact hkind
  | compressed hkind => exact hkind
  | link hkind => exact hkind

/-- What is read of a file leaves the volume and the table as they are. -/
theorem reads : NodeTable.Reads (frontend zisofs codecs) where
  metadata P node := by
    refine Preserves.bind (preserves_reading P _) ?_
    exact fun _ => Preserves.pure _ _
  readAt P node off buf := by
    refine Preserves.bind (preserves_reading P _) ?_
    intro inode
    refine Preserves.ite (Preserves.throw _ _) ?_
    refine Preserves.bind (Preserves.get _) ?_
    intro iso
    split
    · exact Preserves.ite (Preserves.lift _ _) (Preserves.throw _ _)
    · exact Preserves.lift _ _
  readLink P node := by
    refine Preserves.bind (preserves_reading P _) ?_
    exact fun _ => Preserves.pure _ _

theorem exec_inode_ok {iso : Iso9660} {n : NodeId} (h : iso.table.inode n = .ok node) :
    exec (Iso9660.inode n) iso = (.ok node, iso) := Prod.ext h rfl

theorem Stores.openVolume (h : Stores zisofs codecs src g inode layout) :
    Iso9660.openVolume src = .ok (layout.volume src, inode g.root) := by
  rw [h.root]
  exact h.starts.openVolume

theorem Stores.listed_of_ne (h : Stores zisofs codecs src g inode layout) (hi : i ≠ g.root) :
    Listed (layout.volume src) (inode i) := by
  obtain ⟨j, entries, name, hitem, hmem⟩ := (h.listed i).resolve_left hi
  have hfile := h.files j
  rw [hitem] at hfile
  exact ⟨inode j, _, hfile.entries, name, List.mem_map.mpr ⟨(name, i), hmem, rfl⟩⟩

theorem Stores.bounded (h : Stores zisofs codecs src g inode layout) (i : ι) :
    (inode i).Bounded := by
  by_cases hi : i = g.root
  · subst hi
    exact (openVolume_bounded h.openVolume).2.2
  · exact (h.listed_of_ne hi).bounded

/-- A file is known by the place of its first record. -/
theorem Stores.same (h : Stores zisofs codecs src g inode layout) {i j : ι}
    (hij : (inode i).key = (inode j).key) : inode i = inode j := by
  have hroot : (inode g.root).key = rootKey := openVolume_root_key h.openVolume
  by_cases hi : i = g.root
  · by_cases hj : j = g.root
    · rw [hi, hj]
    · rw [hi, hroot] at hij
      exact absurd hij.symm (h.listed_of_ne hj).key_ne
  · by_cases hj : j = g.root
    · rw [hj, hroot] at hij
      exact absurd hij (h.listed_of_ne hi).key_ne
    · exact (h.listed_of_ne hi).unique (h.listed_of_ne hj) hij

/-- The nodes that are stored are served. -/
theorem Stores.stored (h : Stores zisofs codecs src g inode layout) :
    nodeTable.Stored (frontend zisofs codecs) (layout.volume src) g (fun i => (inode i).key)
      inode where
  same hij := h.same hij
  kind i := (h.files i).kind_eq
  records {i entries} hitem := by
    have hfile := h.files i
    rw [hitem] at hfile
    refine ⟨entries.map fun entry => (entry.1, inode entry.2), ?_, List.forall₂_map_right_iff.mpr
      (List.forall₂_same.mpr fun _ _ => ⟨rfl, rfl, rfl⟩)⟩
    have hkind : (inode i).kind = .directory := by
      cases hfile with
      | dir hkind => exact hkind
    change (if (inode i).kind ≠ .directory then _ else _) = _
    rw [if_neg (not_not.mpr hkind)]
    exact hfile.entries
  no_records {i} found hother := by
    have hkind : (inode i).kind ≠ .directory := (h.files i).kind_eq ▸ hother
    change (if (inode i).kind ≠ .directory then _ else _) ≠ _
    rw [if_pos hkind]
    exact fun hok => nomatch hok
  root _ _ := rfl
  reads := reads
  readDir := readDir_eq
  lookup := .inr lookup_eq
  metadata {s node i} _ hnode := by
    refine ⟨⟨(inode i).kind, ((inode i).zisofs.map Zisofs.uncompressedSize).getD (inode i).size, 0⟩,
      ?_, (h.files i).kind_eq, fun bytes hitem => ?_⟩
    · change (exec (metadata node) s).1 = _
      unfold metadata
      rw [exec_bind_of_ok (exec_inode_ok hnode)]
      rfl
    · have hfile := h.files i
      rw [hitem] at hfile
      cases hfile with
      | file hkind hplain hchunks =>
        have hsupplies := hchunks.imp fun _ _ hstored => ExtentStored.supplies hstored
        rw [hplain]
        exact (h.bounded i).size_eq.trans (Supplies.totalLen hsupplies)
      | compressed hkind hzi hfeature hdata =>
        rw [hzi]
        exact hdata.size
  readAt {s node i bytes} off buf hvol hnode hitem _ := by
    have hfile := h.files i
    rw [hitem] at hfile
    have hvol' : s.vol = layout.volume src := hvol
    change (exec (readAt zisofs codecs node off buf) s).1 = _
    unfold readAt
    rw [exec_bind_of_ok (exec_inode_ok hnode)]
    cases hfile with
    | file hkind hplain hchunks =>
      rw [hkind, if_neg (by decide), exec_bind_of_ok (exec_get s), hplain, hvol']
      exact readPlain_stored (h.bounded i) hchunks off buf
    | compressed hkind hzi hfeature hdata =>
      rw [hkind, if_neg (by decide), exec_bind_of_ok (exec_get s), hzi, hvol']
      dsimp only
      rw [if_pos hfeature]
      exact hdata.readZisofs (openVolume_bounded h.openVolume).2.1 (h.bounded i) hzi off buf
  readLink {s node i target} _ hnode hitem := by
    have hfile := h.files i
    rw [hitem] at hfile
    change (exec (readLink node) s).1 = _
    unfold readLink
    rw [exec_bind_of_ok (exec_inode_ok hnode)]
    cases hfile with
    | link hkind htarget => exact congrArg Except.ok htarget

theorem Stores.mount (h : Stores zisofs codecs src g inode layout) :
    mount src = .ok ⟨layout.volume src,
      (InternTable.empty.intern (inode g.root).key (inode g.root)).2⟩ := by
  unfold Iso9660.mount
  rw [h.openVolume]
  rfl

/-- A volume that stores files is opened, and presents them. -/
theorem iso_presents (h : Stores zisofs codecs src g inode layout) :
    ∃ iso, mount src = .ok iso ∧ Presents (frontend zisofs codecs) g iso :=
  ⟨_, h.mount, h.stored.serves.presents (NodeTable.Stored.mounted rfl rfl rfl)⟩

end Volumes

theorem suRecord_fits {su : List UInt8} (h : su.length ≤ 100) (name : UInt8) :
    33 + [name].length + su.length < 2 ^ 8 := by
  rw [List.length_singleton]
  omega

/-- A record with an identifier of one letter. -/
def suRecord (lba size : UInt32) (flags name : UInt8) (su : List UInt8) (h : su.length ≤ 100) :
    Record where
  attr := 0
  lba := lba.toNat
  lba_lt := lba.toNat_lt
  size := size.toNat
  size_lt := size.toNat_lt
  date := List.replicate 7 0
  date_len := date_zeros
  flags := flags
  volume := List.replicate 6 0
  volume_len := volume_zeros
  fi := [name]
  su := su
  fits := suRecord_fits h name

theorem letterPart_le (c : UInt8) : [c].length ≤ 250 := by simp

theorem letterPieces_le (c : UInt8) : ([.part [c] false].flatMap Piece.encode).length ≤ 250 := by
  simp [Piece.encode, Piece.content]

theorem sigZf_length : sigZf.length = 2 := rfl

theorem zfData_length (zf : ZfFields) : zf.data.length ≤ 251 := by
  simp [ZfFields.data, zisofsAlgorithm, bothEndian]

theorem sigZf_other : sigZf ∉ [sigNm, sigSl, sigCe, sigSt] := by decide

def nameEntry (c : UInt8) : Entry := .nm false [c] (letterPart_le c)

def linkEntry (c : UInt8) : Entry := .sl false [.part [c] false] (letterPieces_le c)

def zfEntry (zf : ZfFields) : Entry :=
  .other sigZf zf.data sigZf_length (zfData_length zf) sigZf_other

theorem spArea_le : (spEntry 0).encode.length ≤ 100 := by decide

/-- Five bytes, in blocks of four. -/
def letterZf : ZfFields := ⟨4, 2, 5⟩

theorem zfArea_le : ([nameEntry 0x61, zfEntry letterZf].flatMap Entry.encode).length ≤ 100 := by
  decide

theorem linkArea_le : ([nameEntry 0x62, linkEntry 0x61].flatMap Entry.encode).length ≤ 100 := by
  decide

/-- The root's own record, with the entry that turns Rock Ridge on. -/
def letterDot : Record := suRecord 68 145 Dr.flagDirectory 0x00 (spEntry 0).encode spArea_le

/-- The record of the compressed file, at block 69. -/
def letterFile : Record :=
  suRecord 69 40 0 0x41 ([nameEntry 0x61, zfEntry letterZf].flatMap Entry.encode) zfArea_le

def letterLink : Record :=
  suRecord 0 0 0 0x42 ([nameEntry 0x62, linkEntry 0x61].flatMap Entry.encode) linkArea_le

def letterDir : List UInt8 := letterDot.encode ++ (letterFile.encode ++ (letterLink.encode ++ []))

/-- The header, three pointers, of which the first two are the same, and the stream. -/
def letterStored : List UInt8 :=
  zisofsMagic ++ List.replicate 8 0 ++ [28, 28, 40].flatMap (leBytes 4) ++ letterStream

theorem noArea_le : ([] : List UInt8).length ≤ 100 := by decide

def letterRootRecord : Record := suRecord 68 145 Dr.flagDirectory 0x00 [] noArea_le

/-- A primary descriptor with blocks of 512 bytes. -/
def letterDescriptor : List UInt8 :=
  [1] ++ standardId ++ List.replicate 122 0 ++ [0, 2] ++ List.replicate 26 0 ++
    letterRootRecord.encode ++ List.replicate 1858 0

def letterRest : List UInt8 := letterDescriptor ++ letterDir ++ List.replicate 367 0 ++ letterStored

def letterSource : Source where
  content := List.replicate vdRegionOffset 0 ++ letterRest
  length_lt := by
    rw [List.length_append, List.length_replicate]
    decide +kernel

theorem letterBlock_pos : 0 < (512 : UInt16).toNat := by decide

def letterLayout : Layout where
  descriptors := [.primary 512 letterBlock_pos letterRootRecord]
  primary := ⟨512, letterBlock_pos, letterRootRecord.rootInode⟩
  susp := some 0

theorem noSlash_name (target : Str) (h : target ≠ [] ∧ 0x2F ∉ target) :
    ∀ text, Component.name text ∈ [Component.name target] → text ≠ [] ∧ 0x2F ∉ text := by
  intro text htext
  obtain ⟨⟩ := List.mem_singleton.mp htext
  exact h

/-- A target of one name. -/
def nameTarget (name : Str) (h : name ≠ [] ∧ 0x2F ∉ name) : Target where
  root := false
  components := [.name name]
  nonempty := .inr (List.cons_ne_nil _ _)
  names := noSlash_name name h

theorem letterName_plain : ([0x61] : Str) ≠ [] ∧ 0x2F ∉ ([0x61] : Str) := by decide

def letterTarget : Target := nameTarget [0x61] letterName_plain

/-- A compressed file `a`, and a link `b` to it. -/
def letterFiles : Files Few where
  root := .root
  item
    | .root => .dir [([0x61], .first), ([0x62], .second)]
    | .first => .file [0, 0, 0, 0, 0x61]
    | .second => .link [0x61]

def letterInode : Few → Inode
  | .root => letterLayout.root
  | .first => (letterFile.node 68 41 none (some letterZf.zisofs)).gathered [(41, letterFile)]
  | .second => (letterLink.node 68 97 (some letterTarget) none).gathered [(97, letterLink)]

theorem slice_letterSource {k n : ℕ} {bytes : List UInt8} (h : slice letterRest k n = some bytes) :
    slice letterSource.content (vdRegionOffset + k) n = some bytes := by
  have hfar := slice_append_right (List.replicate vdRegionOffset 0) letterRest k n
  rwa [List.length_replicate, h] at hfar

theorem letterLayout_starts : letterLayout.Starts letterSource where
  sequence := by
    have hcount : maxVdScan = 62 + 1 + 1 := rfl
    have hvd : slice letterSource.content (vdOffset 0) vdSize = some letterDescriptor :=
      slice_letterSource (k := 0) (by decide +kernel)
    rw [hcount]
    refine .cons hvd (by decide +kernel) (.primary rfl (by decide +kernel) (by decide +kernel)) ?_
    refine .cut ?_
    change letterSource.content.length < _
    unfold letterSource
    rw [List.length_append, List.length_replicate]
    decide +kernel
  primary := rfl
  cap := by decide +kernel
  susp := by
    refine ⟨letterDir, ?_, slice_letterSource (k := 2048) (by decide +kernel)⟩
    have harea : letterDot.systemUse =
        ([] : List Entry).flatMap Entry.encode ++ ((spEntry 0).encode ++ []) := by
      rw [List.flatMap_nil, List.nil_append, List.append_nil]
      rfl
    exact .present harea (List.forall_mem_nil _)

/-- A record with a System Use area of entries is recorded as they say. -/
theorem suRecord_recorded {lba size : UInt32} {flags c : UInt8} {entries : List Entry}
    {h : (entries.flatMap Entry.encode).length ≤ 100} {name : Str} {target : Option Target}
    {zi : Option Zisofs} (hplain : NamedBy (suRecord lba size flags c _ h).isDir [c] false [c])
    (hlast : entries.filterMap Entry.pointer = []) (hsaid : Says entries (some name) target zi) :
    Recorded (letterLayout.volume letterSource) (suRecord lba size flags c _ h) name target zi := by
  refine ⟨[c], some name, hplain, ?_, rfl⟩
  have harea : (suRecord lba size flags c _ h).systemUse.drop 0 =
      (Area.mk entries [] (.zeros 0)).encode := (List.append_nil _).symm
  refine .areas rfl (Nat.le_add_right 34 _) harea (.last hlast) (Nat.zero_le _) ?_
  rwa [List.flatMap_singleton]

theorem named_letter (c : UInt8) (h : isUtf8 [c] = true ∧ 0x3B ∉ [c] ∧ c ≠ 0x2E) :
    NamedBy false [c] false [c] := by
  have hlast : [c].getLast? ≠ some 0x2E := fun hlast => h.2.2 (Option.some.inj hlast)
  exact .plain h.1 (.file h.2.1 (.inr ⟨rfl, hlast⟩) (.inl rfl))

theorem letterFile_entry : EntryOf letterInode (letterLayout.volume letterSource) 68
    ([0x61], .first) [(41, letterFile)] where
  isChain := .single (.inl rfl)
  count := by decide
  first := by
    refine ⟨41, letterFile, [], none, some letterZf.zisofs, rfl, ?_, rfl⟩
    refine suRecord_recorded (named_letter 0x41 (by decide)) rfl ⟨by decide, fun _ => by decide, ?_, ?_⟩
    · exact fun t ht => nomatch ht
    · exact ⟨[none, some letterZf.zisofs], .cons (.other (by decide)) (.cons (.zisofs rfl rfl) .nil),
        rfl⟩

theorem letterLink_entry : EntryOf letterInode (letterLayout.volume letterSource) 68
    ([0x62], .second) [(97, letterLink)] where
  isChain := .single (.inl rfl)
  count := by decide
  first := by
    refine ⟨97, letterLink, [], some letterTarget, none, rfl, ?_, rfl⟩
    refine suRecord_recorded (named_letter 0x42 (by decide)) rfl
      ⟨by decide, ?_, ?_, ?_⟩
    · exact fun hnone => nomatch hnone
    · intro t ht
      obtain rfl := Option.some.inj ht
      have hcut : Cut (.name ([[0x61]] : List (List UInt8)).flatten) (cutName [[0x61]]) :=
        .name (List.cons_ne_nil _ _)
      exact ⟨[cutName [[0x61]]], .cons hcut .nil, rfl⟩
    · exact ⟨[none, none], .cons (.other (by decide)) (.cons (.other (by decide)) .nil), rfl⟩

theorem letterFile_deflated : Deflated letterZlib letterSource (69 * 512) letterZf.zisofs
    [0, 0, 0, 0, 0x61] [28, 28, 40] where
  size := rfl
  log2_lt := by decide
  count := by decide
  ptrs_lt := by decide
  cap := by decide
  head := by
    refine ⟨List.replicate 8 0, rfl, ?_⟩
    exact slice_letterSource (k := 2560) (by decide +kernel)
  blocks blk p q hp hq := by
    match blk with
    | 0 =>
      obtain rfl := Option.some.inj hp
      obtain rfl := Option.some.inj hq
      exact .hole 4
    | 1 =>
      obtain rfl := Option.some.inj hp
      obtain rfl := Option.some.inj hq
      have hstored : slice letterSource.content (69 * 512 + 28) 12 = some letterStream :=
        slice_letterSource (k := 2588) (by decide +kernel)
      have hblock : BlockStored letterZlib letterSource (69 * 512) 28 (28 + letterStream.length)
          [0x61] :=
        .deflated (List.cons_ne_nil _ _) (by decide) (by decide) hstored (by decide)
      exact hblock
    | blk + 2 => cases hq

theorem stores_letterSource :
    Stores true letterZlib letterSource letterFiles letterInode letterLayout where
  starts := letterLayout_starts
  root := rfl
  listed i := by
    match i with
    | .root => exact .inl rfl
    | .first => exact .inr ⟨.root, _, [0x61], rfl, List.mem_cons_self⟩
    | .second => exact .inr ⟨.root, _, [0x62], rfl, List.mem_cons_of_mem _ List.mem_cons_self⟩
  files i := by
    match i with
    | .root =>
      have hextent : slice letterSource.content (68 * 512) 145 = some letterDir :=
        slice_letterSource (k := 2048) (by decide +kernel)
      have hlaid : Laid 512 0 letterDir [[(41, letterFile)], [(97, letterLink)]].flatten :=
        .dot rfl (.record rfl (.record rfl (.done (n := 0) (by decide))))
      exact .dir rfl (by decide) hextent hlaid (.cons letterFile_entry (.cons letterLink_entry .nil))
    | .first => exact .compressed rfl rfl rfl letterFile_deflated
    | .second => exact .link rfl rfl

def letterMount : Iso9660 :=
  ⟨letterLayout.volume letterSource, (InternTable.empty.intern rootKey (letterInode .root)).2⟩

theorem mount_letterSource : mount letterSource = .ok letterMount := stores_letterSource.mount

/-- The file of the volume is read after its directory. -/
theorem answers_all_letterSource :
    (frontend true letterZlib).Answers (.readAt 1 0 [0, 0])
      ((frontend true letterZlib).after (.readDir 0) letterMount) := by
  have hmount := mount_letterSource
  generalize letterMount = iso at hmount ⊢
  exact ((answers_all true letterZlib letterSource).2 iso _ hmount
    (.call () (.readDir 0) .refl)).1 (.readAt 1 0 [0, 0])

theorem mounted_nodes_stable_letterSource :
    StableNodes (fun _ : Unit => frontend true letterZlib) Iso9660.table
      (nodeTable.keyed letterMount.vol) letterMount := by
  have hmount := mount_letterSource
  generalize letterMount = iso at hmount ⊢
  exact ((mounted_nodes_stable true letterZlib letterSource).1 iso hmount).1

theorem iso_presents_letterSource :
    ∃ iso, mount letterSource = .ok iso ∧ Presents (frontend true letterZlib) letterFiles iso :=
  iso_presents stores_letterSource

end Lamfold.Iso9660
