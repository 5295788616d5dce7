import Lamfold.Answers
import Lamfold.ErofsCaches
import Lamfold.ErofsChecked

/-!
The sums that reading an EROFS volume forms. Inode offsets, block addresses and
chunk tables are fields of the image that enter sums the code does not check; the
parts of a read are answered exactly when these sums fit 64 bits.
-/
namespace Lamfold.Erofs

open Effects Bytes

variable {vol : Volume}

/-- The end of an inode's xattrs, where its inline data or its index starts. -/
def InodeFits (vol : Volume) (nid : NodeId) : Prop :=
  ∀ off hdr format xattrIcount, inodeOffset vol nid = .ok off → inodeBytes vol off = .ok hdr →
    leU16 hdr 0 = .ok format → leU16 hdr 2 = .ok xattrIcount →
      off + headLen format xattrIcount < 2 ^ 64

theorem answered_inodeBytes {off : ℕ} : Answered (inodeBytes vol off) := by
  refine (answered_readAt ..).bind fun compact hcompact => ?_
  have hend := Source.readAt_le hcompact
  have hlen := vol.src.length_lt
  unfold Source.len at hend
  refine (answered_leAt ..).bind fun format _ => ?_
  refine Answered.ite (fun _ => ?_) fun _ => trivial
  refine Answered.bind (answered_fits.mpr (by omega)) fun _ _ => ?_
  exact (answered_readAt ..).bind fun _ _ => trivial

theorem inodeBytes_length {off : ℕ} {hdr : List UInt8} (h : inodeBytes vol off = .ok hdr) :
    32 ≤ hdr.length := by
  obtain ⟨compact, hcompact, h⟩ := bind_eq_ok.mp h
  obtain ⟨format, -, h⟩ := bind_eq_ok.mp h
  have hlen := Source.readAt_length hcompact
  split_ifs at h
  · obtain ⟨next, -, h⟩ := bind_eq_ok.mp h
    obtain ⟨extended, -, h⟩ := bind_eq_ok.mp h
    cases h
    rw [List.length_append, hlen]
    omega
  · cases h
    omega

theorem sizeField_of_le (format : ℕ) {hdr : List UInt8} (h : 32 ≤ hdr.length) :
    ∃ size, sizeField format hdr = .ok size := by
  unfold sizeField
  split_ifs
  · exact leAt_of_le _ (by omega)
  · exact leAt_of_le _ (by omega)

theorem answered_sizeField {format : ℕ} {hdr : List UInt8} : Answered (sizeField format hdr) :=
  Answered.ite (fun _ => answered_leAt ..) fun _ => answered_leAt ..

theorem answered_readInode {nid : NodeId} :
    Answered (readInode vol nid) ↔ InodeFits vol nid := by
  rw [readInode_eq]
  constructor
  · intro h off hdr format xattrIcount hoff hhdr hformat hxattr
    have hlen := inodeBytes_length hhdr
    obtain ⟨mode, hmode⟩ := leAt_of_le "erofs: truncated u16" (show 4 + 2 ≤ hdr.length by omega)
    obtain ⟨size, hsize⟩ := sizeField_of_le format hlen
    obtain ⟨raw, hraw⟩ := leAt_of_le "erofs: truncated u32" (show 16 + 4 ≤ hdr.length by omega)
    rw [hoff, ok_bind, hhdr, ok_bind, hformat, ok_bind, hxattr, ok_bind, leU16, hmode, ok_bind,
      hsize, ok_bind, leU32, hraw, ok_bind, answered_bind, answered_fits] at h
    exact h.1
  · intro h
    refine Answered.bind (answered_okOr ..) fun off hoff => ?_
    refine answered_inodeBytes.bind fun hdr hhdr => ?_
    refine (answered_leAt ..).bind fun format hformat => ?_
    refine (answered_leAt ..).bind fun xattrIcount hxattr => ?_
    refine (answered_leAt ..).bind fun mode _ => ?_
    refine answered_sizeField.bind fun size _ => ?_
    refine (answered_leAt ..).bind fun raw _ => ?_
    have hfits := h off hdr format xattrIcount hoff hhdr hformat hxattr
    exact Answered.bind (answered_fits.mpr hfits) fun _ _ => trivial

/-- The block address and the block count are 32-bit fields. -/
structure Head.Small (h : Head) : Prop where
  blkaddr_lt : h.blkaddr < 2 ^ 32
  cblkcnt_lt : h.cblkcnt < 2 ^ 32

theorem answered_headStart {lcsize i clusterofs : ℕ} {heads : List Head}
    (h : i * lcsize + clusterofs < 2 ^ 64) : Answered (headStart lcsize heads i clusterofs) := by
  refine Answered.ite (fun _ => trivial) fun _ => ?_
  refine Answered.bind (answered_fits.mpr (by omega)) fun base hbase => ?_
  obtain ⟨-, rfl⟩ := fits_eq_ok.mp hbase
  exact answered_fits.mpr h

/-- An entry that was read ends inside the source, and the next one starts there. -/
theorem answered_fullEntries {src : Source} {idx0 lcsize i count : ℕ} {heads : List Head}
    (hindex : count ≠ 0 → idx0 + i * 8 < 2 ^ 64)
    (hstart : ∀ j, j < i + count → j * lcsize < 2 ^ 63) (hcount : i + count < 2 ^ 60) :
    Answered (fullEntries src idx0 lcsize i count heads) := by
  induction count generalizing i heads with
  | zero => trivial
  | succ count ih =>
    have hfirst := hindex (Nat.succ_ne_zero count)
    rw [fullEntries]
    refine Answered.bind (answered_fits.mpr (by omega)) fun offset hoffset => ?_
    obtain ⟨-, rfl⟩ := fits_eq_ok.mp hoffset
    refine Answered.bind (answered_fits.mpr hfirst) fun offset hoffset => ?_
    obtain ⟨-, rfl⟩ := fits_eq_ok.mp hoffset
    refine (answered_readAt ..).bind fun e he => ?_
    have hend := Source.readAt_le he
    have hlen := src.length_lt
    have hnext : count ≠ 0 → idx0 + (i + 1) * 8 < 2 ^ 64 := by
      intro _
      unfold Source.len at hend
      omega
    have hstart' : ∀ j, j < i + 1 + count → j * lcsize < 2 ^ 63 := by
      intro j hj
      exact hstart j (by omega)
    refine Answered.ite (fun _ => ih hnext hstart' (by omega)) fun _ => ?_
    refine Answered.ite (fun _ => trivial) fun _ => ?_
    have hofs : leNat ((e.drop 2).take 2) < 2 ^ 16 := by
      have hlt := leNat_lt ((e.drop 2).take 2)
      have hle : ((e.drop 2).take 2).length ≤ 2 := List.length_take_le ..
      exact Nat.lt_of_lt_of_le hlt (Nat.pow_le_pow_right (by decide) hle)
    have hbase := hstart i (by omega)
    exact (answered_headStart (by omega)).bind fun _ _ => ih hnext hstart' (by omega)

theorem fullEntries_small {src : Source} {idx0 lcsize i count : ℕ} {heads out : List Head}
    (hheads : ∀ h ∈ heads, h.Small) (hout : fullEntries src idx0 lcsize i count heads = .ok out) :
    ∀ h ∈ out, h.Small := by
  induction count generalizing i heads with
  | zero =>
    cases hout
    exact hheads
  | succ count ih =>
    rw [fullEntries] at hout
    obtain ⟨_, -, hout⟩ := bind_eq_ok.mp hout
    obtain ⟨_, -, hout⟩ := bind_eq_ok.mp hout
    obtain ⟨e, he, hout⟩ := bind_eq_ok.mp hout
    dsimp only at hout
    split_ifs at hout
    · exact ih hheads hout
    · exact absurd hout (fail_ne_ok _ _)
    · obtain ⟨start, -, hout⟩ := bind_eq_ok.mp hout
      refine ih ?_ hout
      intro h hmem
      rcases List.mem_append.mp hmem with hmem | hmem
      · exact hheads h hmem
      · cases List.mem_singleton.mp hmem
        refine ⟨?_, Nat.one_lt_two_pow (by decide)⟩
        have hlen : (e.drop 4).length = 4 := by rw [List.length_drop, Source.readAt_length he]
        have hlt := leNat_lt (e.drop 4)
        rw [hlen] at hlt
        exact hlt

/-- The value has 12 bits and the base 32. -/
structure RawEntry.Small (e : RawEntry) : Prop where
  value_lt : e.value < 2 ^ 12
  base_lt : e.base < 2 ^ 32

theorem ofCode_small {code region base : ℕ} (hbase : base < 2 ^ 32) :
    (RawEntry.ofCode code region base).Small := by
  refine ⟨?_, hbase⟩
  have hle : code &&& 0x0FFF ≤ 0x0FFF := Nat.and_le_right
  exact Nat.lt_of_le_of_lt hle (by decide)

section Groups

variable {size per : ℕ} {hper : 0 < per} {what : String}
  {unpack : List UInt8 → ℕ → Outcome (List ℕ)} {buf : List UInt8}

theorem answered_readGroups (hunpack : ∀ group n, Answered (unpack group n))
    {pos rid remaining : ℕ} :
    Answered (readGroups size per hper what unpack buf pos rid remaining) := by
  fun_induction readGroups size per hper what unpack buf pos rid remaining with
  | case1 pos rid => trivial
  | case2 pos rid remaining hne ih =>
    refine Answered.bind (answered_okOr ..) fun group _ => ?_
    refine (hunpack group _).bind fun codes _ => ?_
    exact ih.bind fun _ _ => trivial

theorem readGroups_small (hsize : size ≤ 4 + (size - 4))
    (hunpack : ∀ group n codes, unpack group n = .ok codes → codes.length ≤ n)
    {pos rid remaining pos' rid' : ℕ} {es : List RawEntry}
    (h : readGroups size per hper what unpack buf pos rid remaining = .ok (es, pos', rid')) :
    es.length ≤ remaining ∧ ∀ e ∈ es, e.Small := by
  fun_induction readGroups size per hper what unpack buf pos rid remaining
    generalizing es pos' rid' with
  | case1 pos rid =>
    cases h
    exact ⟨Nat.le_refl 0, fun e he => nomatch he⟩
  | case2 pos rid remaining hne ih =>
    obtain ⟨group, hgroup, h⟩ := bind_eq_ok.mp h
    obtain ⟨codes, hcodes, h⟩ := bind_eq_ok.mp h
    obtain ⟨⟨rest, pos'', rid''⟩, hrest, h⟩ := bind_eq_ok.mp h
    cases h
    obtain ⟨hlen, hsmall⟩ := ih hrest
    have hcount := hunpack group _ codes hcodes
    refine ⟨?_, ?_⟩
    · rw [List.length_append, List.length_map]
      omega
    · intro e he
      rcases List.mem_append.mp he with he | he
      · obtain ⟨code, -, rfl⟩ := List.mem_map.mp he
        refine ofCode_small ?_
        have hlt := leNat_lt (group.drop (size - 4))
        have hle : (group.drop (size - 4)).length ≤ 4 := by
          rw [List.length_drop, slice_length (okOr_eq_ok.mp hgroup)]
          omega
        exact Nat.lt_of_lt_of_le hlt (Nat.pow_le_pow_right (by decide) hle)
      · exact hsmall e he

end Groups

theorem halves_length {group : List UInt8} {n : ℕ} {codes : List ℕ}
    (h : halves group n = .ok codes) : codes.length ≤ n := by
  cases h
  exact List.length_take_le ..

theorem answered_packed (pack : List UInt8) (n : ℕ) : Answered (packed pack n) := by
  refine Answered.mapM fun s _ => ?_
  refine Answered.foldlM (P := fun _ => True) trivial fun v k _ _ => ⟨?_, fun _ _ => trivial⟩
  exact Answered.bind (answered_okOr ..) fun _ _ => trivial

theorem packed_length {pack : List UInt8} {n : ℕ} {codes : List ℕ}
    (h : packed pack n = .ok codes) : codes.length ≤ n := by
  rw [mapM_length h, List.length_range]

theorem answered_readEntries {buf : List UInt8} {c4i c2b c4f : ℕ} :
    Answered (readEntries buf c4i c2b c4f) := by
  have hhalves : ∀ group n, Answered (halves group n) := fun _ _ => trivial
  refine (answered_readGroups hhalves).bind fun r _ => ?_
  refine (answered_readGroups answered_packed).bind fun r' _ => ?_
  exact (answered_readGroups hhalves).bind fun _ _ => trivial

theorem readEntries_small {buf : List UInt8} {c4i c2b c4f : ℕ} {raw : List RawEntry}
    (h : readEntries buf c4i c2b c4f = .ok raw) :
    raw.length ≤ c4i + c2b + c4f ∧ ∀ e ∈ raw, e.Small := by
  obtain ⟨⟨raw₁, pos₁, rid₁⟩, h₁, h⟩ := bind_eq_ok.mp h
  obtain ⟨⟨raw₂, pos₂, rid₂⟩, h₂, h⟩ := bind_eq_ok.mp h
  obtain ⟨⟨raw₃, pos₃, rid₃⟩, h₃, h⟩ := bind_eq_ok.mp h
  cases h
  have hhalves : ∀ group n codes, halves group n = .ok codes → codes.length ≤ n :=
    fun _ _ _ => halves_length
  have hpacked : ∀ group n codes, packed group n = .ok codes → codes.length ≤ n :=
    fun _ _ _ => packed_length
  obtain ⟨hlen₁, hsmall₁⟩ := readGroups_small (by decide) hhalves h₁
  obtain ⟨hlen₂, hsmall₂⟩ := readGroups_small (by decide) hpacked h₂
  obtain ⟨hlen₃, hsmall₃⟩ := readGroups_small (by decide) hhalves h₃
  refine ⟨?_, ?_⟩
  · simp only [List.length_append]
    omega
  · intro e he
    rcases List.mem_append.mp he with he | he
    · rcases List.mem_append.mp he with he | he
      · exact hsmall₁ e he
      · exact hsmall₂ e he
    · exact hsmall₃ e he

/-- The current head exists, and every head is small. -/
structure Resolving.Sound (st : Resolving) : Prop where
  curHead_lt : ∀ k, st.curHead = some k → k < st.heads.length
  small : ∀ h ∈ st.heads, h.Small

theorem checkedU32_lt {n m : ℕ} (h : checkedU32 n = some m) : m < 2 ^ 32 := by
  unfold checkedU32 at h
  split_ifs at h
  · cases h
    assumption

theorem Resolving.Sound.open_ {st : Resolving} (hst : st.Sound) {head : Head} (hhead : head.Small)
    (regionHeads : Std.TreeMap ℕ ℕ) :
    Resolving.Sound ⟨st.heads ++ [head], regionHeads, some st.heads.length⟩ := by
  refine ⟨?_, ?_⟩
  · intro k hk
    obtain rfl := Option.some.inj hk
    rw [List.length_append]
    exact Nat.lt_succ_self _
  · intro h hmem
    rcases List.mem_append.mp hmem with hmem | hmem
    · exact hst.small h hmem
    · exact List.mem_singleton.mp hmem ▸ hhead

theorem resolveEntry_sound {lcsize i : ℕ} {big : Bool} {st st' : Resolving} {e : RawEntry}
    (hst : st.Sound) (h : resolveEntry lcsize big st e i = .ok st') : st'.Sound := by
  unfold resolveEntry at h
  split_ifs at h
  · cases hcur : st.curHead with
    | none =>
      rw [hcur] at h
      obtain rfl : st = st' := Except.ok.inj h
      exact hst
    | some k =>
      rw [hcur] at h
      obtain ⟨head, hhead, h⟩ := bind_eq_ok.mp h
      dsimp only at h
      split_ifs at h
      · exact absurd h (fail_ne_ok _ _)
      · cases h
        have hold := hst.small head (List.mem_of_getElem? (unwrap_eq_ok.mp hhead))
        refine ⟨?_, ?_⟩
        · intro j hj
          rw [List.length_set]
          exact hst.curHead_lt j (hcur.trans hj)
        · intro h hmem
          rcases List.mem_or_eq_of_mem_set hmem with hmem | rfl
          · exact hst.small h hmem
          · refine ⟨hold.blkaddr_lt, ?_⟩
            have hle : e.value &&& 0x07FF ≤ 0x07FF := Nat.and_le_right
            exact Nat.lt_of_le_of_lt hle (by decide)
  · obtain rfl : st = st' := Except.ok.inj h
    exact hst
  · obtain ⟨start, -, h⟩ := bind_eq_ok.mp h
    cases h
    exact hst.open_ ⟨Nat.two_pow_pos 32, Nat.one_lt_two_pow (by decide)⟩ _
  · obtain ⟨start, -, h⟩ := bind_eq_ok.mp h
    obtain ⟨blkaddr, hblk, h⟩ := bind_eq_ok.mp h
    cases h
    obtain ⟨b, -, hb⟩ := Option.bind_eq_some_iff.mp (okOr_eq_ok.mp hblk)
    exact hst.open_ ⟨checkedU32_lt hb, Nat.one_lt_two_pow (by decide)⟩ _

theorem answered_resolveEntry {lcsize i : ℕ} {big : Bool} {st : Resolving} {e : RawEntry}
    (hst : st.Sound) (he : i * lcsize + e.value < 2 ^ 64) :
    Answered (resolveEntry lcsize big st e i) := by
  unfold resolveEntry
  refine Answered.ite (fun _ => ?_) fun _ => ?_
  · refine Answered.ite (fun _ => ?_) fun _ => trivial
    cases hcur : st.curHead with
    | none => trivial
    | some k =>
      have hlt := hst.curHead_lt k hcur
      refine Answered.bind (answered_unwrap.mpr ?_) fun head _ => ?_
      · rw [List.getElem?_eq_getElem hlt]
        exact Option.some_ne_none _
      · exact Answered.ite (fun _ => trivial) fun _ => trivial
  · refine (answered_headStart he).bind fun start _ => ?_
    refine Answered.ite (fun _ => trivial) fun _ => ?_
    exact Answered.bind (answered_okOr ..) fun _ _ => trivial

theorem answered_placeBig {blk : ℕ} {heads : List Head} : Answered (placeBig blk heads) := by
  fun_induction placeBig blk heads with
  | case1 blk => trivial
  | case2 blk head => trivial
  | case3 blk head next rest ih =>
    exact Answered.bind (answered_okOr ..) fun blk' _ => (ih blk').bind fun _ _ => trivial

theorem placeBig_small {blk : ℕ} {heads out : List Head} (hblk : blk < 2 ^ 32)
    (hheads : ∀ h ∈ heads, h.Small) (h : placeBig blk heads = .ok out) : ∀ h ∈ out, h.Small := by
  fun_induction placeBig blk heads generalizing out with
  | case1 blk =>
    cases h
    exact hheads
  | case2 blk head =>
    cases h
    intro h hmem
    cases List.mem_singleton.mp hmem
    exact ⟨hblk, (hheads head List.mem_cons_self).cblkcnt_lt⟩
  | case3 blk head next rest ih =>
    obtain ⟨blk', hblk', h⟩ := bind_eq_ok.mp h
    obtain ⟨placed, hplaced, h⟩ := bind_eq_ok.mp h
    cases h
    have hrest := ih blk' (checkedU32_lt (okOr_eq_ok.mp hblk'))
      (fun h hmem => hheads h (List.mem_cons_of_mem _ hmem)) hplaced
    intro h hmem
    rcases List.mem_cons.mp hmem with rfl | hmem
    · exact ⟨hblk, (hheads head List.mem_cons_self).cblkcnt_lt⟩
    · exact hrest h hmem

section Resolve

variable {raw : List RawEntry} {lcsize advise : ℕ}

theorem init_sound : Resolving.init.Sound := by
  refine ⟨?_, ?_⟩
  · intro k hk
    cases hk
  · intro h hmem
    cases hmem

theorem answered_resolveCompactHeads (hraw : ∀ e ∈ raw, e.Small)
    (hlen : ∀ i, i < raw.length → i * lcsize < 2 ^ 63) :
    Answered (resolveCompactHeads raw lcsize advise) := by
  refine Answered.bind ?_ fun st _ => Answered.ite (fun _ => answered_placeBig) fun _ => trivial
  refine Answered.foldlM init_sound fun st ei hmem hst => ⟨?_, ?_⟩
  · obtain ⟨e, i⟩ := ei
    have hget := List.mem_zipIdx_iff_getElem?.mp hmem
    obtain ⟨hi, -⟩ := List.getElem?_eq_some_iff.mp hget
    have hvalue := (hraw e (List.mem_of_getElem? hget)).value_lt
    have hstart := hlen i hi
    exact answered_resolveEntry hst (by omega)
  · intro st' hst'
    exact resolveEntry_sound hst hst'

theorem resolveCompactHeads_small (hraw : ∀ e ∈ raw, e.Small) {heads : List Head}
    (h : resolveCompactHeads raw lcsize advise = .ok heads) : ∀ h ∈ heads, h.Small := by
  obtain ⟨st, hst, h⟩ := bind_eq_ok.mp h
  have hsound : st.Sound :=
    foldlM_keeps (fun _ _ _ hmid h => resolveEntry_sound hmid h) init_sound hst
  split_ifs at h
  · refine placeBig_small ?_ hsound.small h
    cases raw with
    | nil => exact Nat.two_pow_pos 32
    | cons e rest => exact (hraw e List.mem_cons_self).base_lt
  · cases h
    exact hsound.small

end Resolve

theorem zones_sum {ebase nLc c4i c2b c4f : ℕ} (h : zones ebase nLc = (c4i, c2b, c4f)) :
    c4i + c2b + c4f = nLc := by
  unfold zones at h
  simp only [Prod.mk.injEq] at h
  omega

theorem indexLen_lt {c4i c2b c4f : ℕ} (h : c4i + c2b + c4f < 2 ^ 60) :
    indexLen c4i c2b c4f < 2 ^ 64 := by
  unfold indexLen divCeil
  omega

section Index

variable {src : Source} {ebase lcsize nLc advise : ℕ}

theorem answered_buildHeadsCompact (hnLc : nLc < 2 ^ 60)
    (hlen : ∀ i, i < nLc → i * lcsize < 2 ^ 63) :
    Answered (buildHeadsCompact src ebase lcsize nLc advise) := by
  unfold buildHeadsCompact
  rcases hzones : zones ebase nLc with ⟨c4i, c2b, c4f⟩
  have hsum := zones_sum hzones
  refine Answered.bind (answered_fits.mpr (indexLen_lt (by omega))) fun idxLen _ => ?_
  refine Answered.bind (answered_checkedLen ..) fun cap _ => ?_
  refine (answered_readAt ..).bind fun buf _ => ?_
  refine answered_readEntries.bind fun raw hraw => ?_
  obtain ⟨hcount, hsmall⟩ := readEntries_small hraw
  exact answered_resolveCompactHeads hsmall fun i hi => hlen i (by omega)

theorem buildHeadsCompact_small {heads : List Head}
    (h : buildHeadsCompact src ebase lcsize nLc advise = .ok heads) : ∀ h ∈ heads, h.Small := by
  unfold buildHeadsCompact at h
  obtain ⟨idxLen, -, h⟩ := bind_eq_ok.mp h
  obtain ⟨cap, -, h⟩ := bind_eq_ok.mp h
  obtain ⟨buf, -, h⟩ := bind_eq_ok.mp h
  obtain ⟨raw, hraw, h⟩ := bind_eq_ok.mp h
  exact resolveCompactHeads_small (readEntries_small hraw).2 h

end Index

/-- The header is of a layout that is read. -/
structure MapHeader.Accepted (vol : Volume) (hdr : MapHeader) : Prop where
  whole : hdr.clusterbits &&& clusterbitsWholeFileFragment = 0
  advise : hdr.advise &&& (adviseInlinePcluster ||| adviseInterlacedPcluster ||| adviseFragment) = 0
  lcbits : vol.blkszbits + (hdr.clusterbits &&& 0x0f) ≤ 30

/-- The position of the map header, and of the entries of a full index. -/
structure IndexFits (vol : Volume) (inode : Inode) : Prop where
  header : inode.inlineOff + 7 < 2 ^ 64
  entries : inode.layout = compressedFull → inode.size ≤ maxBootFileBytes → ∀ hdr : MapHeader,
    readMapHeader vol ((inode.inlineOff + 7) / 8 * 8) = .ok hdr → hdr.Accepted vol →
      (inode.inlineOff + 7) / 8 * 8 + legacyHeaderSize < 2 ^ 64

section Heads

variable {inode : Inode} {hdr : MapHeader} {mh : ℕ}

theorem lclusters {size lcbits i : ℕ} (hsize : size ≤ maxBootFileBytes)
    (hi : i < divCeil size (2 ^ lcbits)) : i * 2 ^ lcbits < 2 ^ 63 := by
  have hlt := (lt_divCeil_iff (Nat.two_pow_pos lcbits)).mp hi
  have hmax : maxBootFileBytes < 2 ^ 63 := by decide
  omega

theorem divCeil_le_self {size lcbits : ℕ} : divCeil size (2 ^ lcbits) ≤ size := by
  rcases Nat.eq_zero_or_pos (divCeil size (2 ^ lcbits)) with hzero | hpos
  · omega
  · have hlt := (lt_divCeil_iff (Nat.two_pow_pos lcbits)).mp (Nat.sub_lt hpos Nat.one_pos)
    have hle := Nat.le_mul_of_pos_right (divCeil size (2 ^ lcbits) - 1) (Nat.two_pow_pos lcbits)
    omega

theorem readMapHeader_le (h : readMapHeader vol mh = .ok hdr) : mh + 8 ≤ vol.src.len := by
  obtain ⟨bytes, hbytes, -⟩ := bind_eq_ok.mp h
  exact Source.readAt_le hbytes

/-- Given the header, only the start of a full index can lie out of reach. -/
theorem answered_buildHeads (hmh : mh + 8 < 2 ^ 64) (hsize : inode.size ≤ maxBootFileBytes) :
    Answered (buildHeads vol inode hdr mh) ↔
      (inode.layout = compressedFull → hdr.Accepted vol → mh + legacyHeaderSize < 2 ^ 64) := by
  have hmax : maxBootFileBytes < 2 ^ 60 := by decide
  have hcount : divCeil inode.size (2 ^ (vol.blkszbits + (hdr.clusterbits &&& 0x0f))) ≤ inode.size :=
    divCeil_le_self
  unfold buildHeads
  dsimp only
  constructor
  · intro h hfull haccepted
    rw [if_neg (by rw [haccepted.whole, haccepted.advise]; simp),
      if_neg (Nat.not_lt.mpr haccepted.lcbits), if_pos hfull] at h
    exact answered_fits.mp (answered_bind.mp h).1
  · intro h
    refine Answered.ite (fun _ => trivial) fun hwhole => ?_
    refine Answered.ite (fun _ => trivial) fun hlcbits => ?_
    refine Answered.ite (fun hfull => ?_) fun _ => ?_
    · have haccepted : hdr.Accepted vol := by
        simp only [not_or, ne_eq, not_not] at hwhole
        exact ⟨hwhole.1, hwhole.2, Nat.le_of_not_lt hlcbits⟩
      refine Answered.bind (answered_fits.mpr (h hfull haccepted)) fun idx0 hidx0 => ?_
      obtain ⟨hlt, rfl⟩ := fits_eq_ok.mp hidx0
      refine answered_fullEntries (fun _ => by omega) ?_ (by omega)
      intro j hj
      exact lclusters hsize (by omega)
    · refine Answered.ite (fun _ => ?_) fun _ => trivial
      refine Answered.ite (fun _ => trivial) fun _ => ?_
      refine Answered.ite (fun _ => trivial) fun _ => ?_
      refine Answered.bind (answered_fits.mpr hmh) fun ebase _ => ?_
      exact answered_buildHeadsCompact (by omega) fun i hi => lclusters hsize hi

theorem buildHeads_small {heads : List Head} (h : buildHeads vol inode hdr mh = .ok heads) :
    ∀ h ∈ heads, h.Small := by
  unfold buildHeads at h
  dsimp only at h
  split_ifs at h
  · exact absurd h (fail_ne_ok _ _)
  · exact absurd h (fail_ne_ok _ _)
  · obtain ⟨idx0, -, h⟩ := bind_eq_ok.mp h
    exact fullEntries_small (fun h hmem => absurd hmem List.not_mem_nil) h
  · exact absurd h (fail_ne_ok _ _)
  · exact absurd h (fail_ne_ok _ _)
  · obtain ⟨ebase, -, h⟩ := bind_eq_ok.mp h
    exact buildHeadsCompact_small h
  · exact absurd h (fail_ne_ok _ _)

theorem answered_readHeads : Answered (readHeads vol inode) ↔ IndexFits vol inode := by
  unfold readHeads mapHeaderOff
  rw [answered_bind, lift_self, answered_bind, answered_fits]
  constructor
  · intro h
    obtain ⟨⟨hheader, -⟩, h⟩ := h
    refine ⟨hheader, ?_⟩
    intro hfull hsize hdr hhdr haccepted
    have hmh : (u64 (inode.inlineOff + 7) >>= fun e => pure (e / 8 * 8)) =
        (.ok ((inode.inlineOff + 7) / 8 * 8) : Outcome ℕ) :=
      bind_eq_ok.mpr ⟨_, fits_eq_ok.mpr ⟨hheader, rfl⟩, rfl⟩
    have h := h _ hmh
    rw [checkedFullReadLen_eq_ok.mpr ⟨hsize, rfl⟩, lift_ok_bind, hhdr, ok_bind, answered_bind] at h
    have hend := readMapHeader_le hhdr
    have hlen := vol.src.length_lt
    unfold Source.len at hend
    exact (answered_buildHeads (by omega) hsize).mp h.1 hfull haccepted
  · intro h
    refine ⟨⟨h.header, fun _ _ => trivial⟩, ?_⟩
    intro mh hmh
    obtain ⟨e, he, hmh⟩ := bind_eq_ok.mp hmh
    obtain ⟨-, rfl⟩ := fits_eq_ok.mp he
    obtain rfl := Except.ok.inj hmh
    refine Answered.bind (answered_checkedLen ..) fun size hsize => ?_
    obtain ⟨hle, rfl⟩ := checkedFullReadLen_eq_ok.mp hsize
    have hheader : Answered (readMapHeader vol ((inode.inlineOff + 7) / 8 * 8)) :=
      (answered_readAt ..).bind fun _ _ => trivial
    refine hheader.bind fun hdr hhdr => ?_
    have hend := readMapHeader_le hhdr
    have hlen := vol.src.length_lt
    unfold Source.len at hend
    have hheads : Answered (buildHeads vol inode hdr ((inode.inlineOff + 7) / 8 * 8)) :=
      (answered_buildHeads (by omega) hle).mpr
        fun hfull haccepted => h.entries hfull hle hdr hhdr haccepted
    exact hheads.bind fun _ _ => trivial

theorem readHeads_small {heads : List Head} (h : readHeads vol inode = .ok (hdr, heads)) :
    ∀ h ∈ heads, h.Small := by
  obtain ⟨mh, -, h⟩ := bind_eq_ok.mp h
  obtain ⟨_, -, h⟩ := bind_eq_ok.mp h
  obtain ⟨hdr', -, h⟩ := bind_eq_ok.mp h
  obtain ⟨heads', hheads, h⟩ := bind_eq_ok.mp h
  cases h
  exact buildHeads_small hheads

end Heads

section Decode

variable {ρ : Type} {codecs : Codecs ρ} {inode : Inode} {hdr : MapHeader}

theorem answered_lz4Pcluster {span win : List UInt8} {outlen : ℕ} {zeroPadding : Bool} :
    Answered (lz4Pcluster codecs span outlen win zeroPadding) := by
  have hstart : Answered (lz4Start span zeroPadding) :=
    Answered.ite (fun _ => answered_okOr ..) fun _ => trivial
  refine hstart.bind fun start _ => ?_
  have hblock : Answered (lz4BlockWithDict codecs (span.drop start) outlen win) := by
    refine Answered.bind (answered_checkedLen ..) fun _ _ => ?_
    refine Answered.bind (answered_okOr ..) fun out _ => ?_
    exact Answered.ite (fun _ => trivial) fun _ => trivial
  exact hblock.bind fun v _ => Answered.ite (fun _ => trivial) fun _ => trivial

theorem answered_deflateStarts {span : List UInt8} {outlen : ℕ} {last : FoldError}
    {starts : List ℕ} : Answered (deflateStarts codecs span outlen last starts) := by
  induction starts generalizing last with
  | nil => trivial
  | cons start starts ih =>
    have hdecode : Answered (decode codecs .deflate (span.drop start) outlen) := answered_decode
    rw [deflateStarts]
    split
    · exact Answered.ite (fun _ => trivial) fun _ => ih
    · trivial
    · trivial
    · exact ih
    · rename_i fault hne hlarge herr hfault
      rw [hfault] at hdecode
      obtain ⟨reported, rfl⟩ := answered_error.mp hdecode
      exact absurd rfl (herr reported)

theorem answered_lzmaPcluster {span : List UInt8} {outlen dictSize : ℕ} :
    Answered (lzmaPcluster codecs span outlen dictSize) := by
  refine Answered.bind (answered_okOr ..) fun start hstart => ?_
  have hlt : start < span.length :=
    (List.findIdx?_eq_some_iff_getElem.mp (okOr_eq_ok.mp hstart)).1
  refine Answered.bind (answered_unwrap.mpr ?_) fun first _ => ?_
  · rw [List.getElem?_eq_getElem hlt]
    exact Option.some_ne_none _
  refine Answered.ite (fun _ => trivial) fun _ => ?_
  refine Answered.bind (answered_checkedLen ..) fun _ _ => ?_
  cases span.drop start with
  | nil => trivial
  | cons slot body =>
    refine Answered.bind (answered_okOr ..) fun reader _ => ?_
    refine answered_readUpTo.bind fun out _ => ?_
    exact Answered.ite (fun _ => trivial) fun _ => trivial

theorem answered_decodePcluster {ty : LcType} {algo outlen : ℕ} {span out : List UInt8}
    {lzmaDict : Option ℕ} {zeroPadding : Bool} :
    Answered (decodePcluster codecs ty algo span outlen out lzmaDict zeroPadding) := by
  have hhead : Answered (decodeHead codecs algo span outlen out lzmaDict zeroPadding) := by
    refine Answered.ite (fun _ => answered_lz4Pcluster) fun _ => ?_
    refine Answered.ite (fun _ => answered_deflateStarts) fun _ => ?_
    refine Answered.ite (fun _ => ?_) fun _ => ?_
    · exact Answered.bind (answered_okOr ..) fun _ _ => answered_decode
    refine Answered.ite (fun _ => ?_) fun _ => trivial
    exact Answered.bind (answered_okOr ..) fun _ _ => answered_lzmaPcluster
  cases ty with
  | plain => exact Answered.bind (answered_checkedLen ..) fun _ _ => answered_okOr ..
  | head1 => exact hhead
  | head2 => exact hhead
  | nonhead => trivial

theorem blockSize_le (vol : Volume) : vol.blockSize ≤ 2 ^ 16 :=
  Nat.pow_le_pow_right (by decide) vol.blkszbits_range.2

/-- A 32-bit count of blocks is far from 64 bits of bytes. -/
theorem blocks_lt {n : ℕ} (hn : n < 2 ^ 32) : n * vol.blockSize < 2 ^ 48 := by
  calc n * vol.blockSize ≤ n * 2 ^ 16 := Nat.mul_le_mul_left n (blockSize_le vol)
    _ < 2 ^ 32 * 2 ^ 16 := Nat.mul_lt_mul_of_pos_right hn (Nat.two_pow_pos 16)
    _ = 2 ^ 48 := by norm_num

theorem answered_readSpan {h : Head} (hsmall : h.Small) :
    Answered (readSpan vol h.blkaddr h.cblkcnt) := by
  have hphys : h.blkaddr * vol.blockSize < 2 ^ 48 := blocks_lt hsmall.blkaddr_lt
  have hwant : h.cblkcnt * vol.blockSize < 2 ^ 48 := blocks_lt hsmall.cblkcnt_lt
  refine Answered.bind (answered_fits.mpr (by omega)) fun phys _ => ?_
  refine Answered.bind (answered_fits.mpr (by omega)) fun want _ => ?_
  exact Answered.ite (fun _ => trivial) fun _ => answered_readAt ..

theorem answered_decodeHeads {iSize : ℕ} {out : List UInt8} {heads : List Head}
    (hheads : ∀ h ∈ heads, h.Small) : Answered (decodeHeads codecs vol hdr iSize out heads) := by
  induction heads generalizing out with
  | nil => trivial
  | cons h rest ih =>
    have hrest := fun h' hmem => hheads h' (List.mem_cons_of_mem h hmem)
    rw [decodeHeads]
    refine Answered.ite (fun _ => trivial) fun _ => ?_
    refine Answered.ite (fun _ => ih hrest) fun _ => ?_
    refine Answered.bind ?_ fun seg _ => ih hrest
    exact (answered_readSpan (hheads h List.mem_cons_self)).bind fun _ _ => answered_decodePcluster

/-- Decoding an inode forms no sum that its index does not. -/
theorem answered_decodeInode : Answered (decodeInode codecs vol inode) ↔ IndexFits vol inode := by
  unfold decodeInode
  rw [answered_bind, answered_readHeads]
  refine and_iff_left ?_
  rintro ⟨hdr, heads⟩ hheads
  exact answered_decodeHeads (readHeads_small hheads)

end Decode

def Inode.chunkbits (vol : Volume) (inode : Inode) : ℕ :=
  vol.blkszbits + (inode.rawBlkaddr % 2 ^ 16 &&& chunkBlkbitsMask)

/-- The chunk format is one that is read. -/
structure ChunksAccepted (vol : Volume) (inode : Inode) : Prop where
  known : (inode.rawBlkaddr % 2 ^ 16) &&& (0xffff - chunkFormatAll) = 0
  narrow : inode.rawBlkaddr % 2 ^ 16 &&& chunk48bit = 0
  chunkbits_le : inode.chunkbits vol ≤ 40
  addresses : inode.rawBlkaddr % 2 ^ 16 &&& chunkIndexes = 0

/-- The sums that reading from `off` on forms before its first piece is read. -/
structure DataFits (vol : Volume) (inode : Inode) (off : ℕ) : Prop where
  plain : inode.layout = flatPlain → inode.rawBlkaddr * vol.blockSize + off < 2 ^ 64
  whole : inode.layout = flatInline → off < inode.size / vol.blockSize * vol.blockSize →
    inode.rawBlkaddr * vol.blockSize + off < 2 ^ 64
  chunk : inode.layout = chunkBased → ChunksAccepted vol inode →
    inode.inlineOff + 3 < 2 ^ 64 ∧
      (off / 2 ^ inode.chunkbits vol + 1) * 2 ^ inode.chunkbits vol < 2 ^ 64 ∧
      (inode.inlineOff + 3) / 4 * 4 + off / 2 ^ inode.chunkbits vol * 4 < 2 ^ 64
  index : inode.layout = compressedFull ∨ inode.layout = compressedCompact → IndexFits vol inode

section Data

variable {inode : Inode} {off stop : ℕ}

/-- Past the whole blocks nothing is added to the place of the tail. -/
theorem answered_readInline {fullBytes base p : ℕ} (hinline : inode.inlineOff < 2 ^ 64)
    (hp : fullBytes ≤ p → p = fullBytes) (hstop : p < stop) :
    Answered (readInline vol inode fullBytes base stop p) ↔ (p < fullBytes → base + p < 2 ^ 64) := by
  have htail : ∀ q, fullBytes ≤ q → q = fullBytes →
      Answered (readInline vol inode fullBytes base stop q) := by
    intro q hle hq
    subst hq
    rw [readInline]
    refine Answered.ite (fun _ => ?_) fun _ => trivial
    rw [if_neg (Nat.lt_irrefl q), Nat.sub_self]
    exact Answered.bind (answered_fits.mpr hinline) fun _ _ => answered_readAt ..
  by_cases hfull : p < fullBytes
  · rw [readInline, if_pos hstop, if_pos hfull]
    dsimp only
    rw [answered_bind, lift_self, answered_fits]
    constructor
    · intro h _
      exact h.1
    · intro h
      refine ⟨h hfull, ?_⟩
      intro disk _
      refine (answered_readAt ..).bind fun seg _ => ?_
      refine Answered.bind ?_ fun _ _ => trivial
      by_cases hcut : stop ≤ fullBytes
      · rw [Nat.min_eq_left hcut, readInline, if_neg (Nat.lt_irrefl stop)]
        trivial
      · rw [Nat.min_eq_right (Nat.le_of_not_le hcut)]
        exact htail fullBytes (Nat.le_refl _) rfl
  · refine iff_of_true ?_ fun h => absurd h hfull
    exact htail p (Nat.le_of_not_lt hfull) (hp (Nat.le_of_not_lt hfull))

theorem answered_readChunk {table idx within n : ℕ} (hwithin : within < 2 ^ 63) :
    Answered (readChunk vol table idx within n) ↔ table + idx * 4 < 2 ^ 64 := by
  unfold readChunk
  rw [answered_bind, lift_self, answered_fits]
  refine and_iff_left fun entry _ => ?_
  refine (answered_readAt ..).bind fun e he => ?_
  refine Answered.ite (fun _ => trivial) fun _ => ?_
  have hlt := leNat_lt e
  rw [Source.readAt_length he] at hlt
  have hblk : leNat e * vol.blockSize < 2 ^ 48 := blocks_lt hlt
  exact Answered.bind (answered_fits.mpr (by omega)) fun _ _ => answered_readAt ..

/-- A chunk whose entry was read is followed by one whose entry is in reach. -/
theorem answered_readChunks {chunkbits table p : ℕ} (hbits : chunkbits ≤ 40)
    (hlater : ∀ q, p < q → q < stop → 2 ^ chunkbits ∣ q →
      (q / 2 ^ chunkbits + 1) * 2 ^ chunkbits < 2 ^ 64) (hstop : p < stop) :
    Answered (readChunks vol chunkbits table stop p) ↔
      (p / 2 ^ chunkbits + 1) * 2 ^ chunkbits < 2 ^ 64 ∧
        table + p / 2 ^ chunkbits * 4 < 2 ^ 64 := by
  have hpos := Nat.two_pow_pos chunkbits
  have hwithin : p % 2 ^ chunkbits < 2 ^ 63 := by
    have hmod := Nat.mod_lt p hpos
    have hle : 2 ^ chunkbits ≤ 2 ^ 40 := Nat.pow_le_pow_right (by decide) hbits
    omega
  have hlt : p < (p / 2 ^ chunkbits + 1) * 2 ^ chunkbits := by
    rw [Nat.mul_comm]
    exact Nat.lt_mul_div_succ p hpos
  rw [readChunks, if_pos hstop]
  dsimp only
  rw [answered_bind, lift_self, answered_fits]
  refine and_congr_right fun hend => ?_
  constructor
  · intro h
    have h := h _ (fits_eq_ok.mpr ⟨hend, rfl⟩)
    exact (answered_readChunk hwithin).mp (answered_bind.mp h).1
  · intro hentry _ _
    refine ((answered_readChunk hwithin).mpr hentry).bind fun seg hseg => ?_
    refine Answered.bind ?_ fun _ _ => trivial
    by_cases hcut : stop ≤ (p / 2 ^ chunkbits + 1) * 2 ^ chunkbits
    · rw [Nat.min_eq_left hcut, readChunks, if_neg (Nat.lt_irrefl stop)]
      trivial
    · rw [Nat.min_eq_right (Nat.le_of_not_le hcut)]
      have hnext := hlater _ hlt (Nat.lt_of_not_le hcut) (Nat.dvd_mul_left ..)
      refine (answered_readChunks hbits ?_ (Nat.lt_of_not_le hcut)).mpr ⟨hnext, ?_⟩
      · intro q hq hqstop hdvd
        exact hlater q (Nat.lt_trans hlt hq) hqstop hdvd
      · obtain ⟨entry, hok, hseg⟩ := bind_eq_ok.mp hseg
        obtain ⟨-, rfl⟩ := fits_eq_ok.mp hok
        obtain ⟨e, he, -⟩ := bind_eq_ok.mp hseg
        have hread := Source.readAt_le he
        have hlen := vol.src.length_lt
        unfold Source.len at hread
        rw [Nat.mul_div_cancel _ hpos]
        omega
  termination_by stop - p

theorem readChunked_def (vol : Volume) (inode : Inode) (off stop : ℕ) :
    readChunked vol inode off stop =
      if (inode.rawBlkaddr % 2 ^ 16) &&& (0xffff - chunkFormatAll) ≠ 0 then
        fail (.corrupt "erofs: unknown chunk format bits")
      else if inode.rawBlkaddr % 2 ^ 16 &&& chunk48bit ≠ 0 then
        fail (.unsupported "erofs: 48-bit chunk indexes not supported")
      else if inode.chunkbits vol > 40 then fail (.corrupt "erofs: implausible chunk size")
      else if inode.rawBlkaddr % 2 ^ 16 &&& chunkIndexes ≠ 0 then
        fail (.unsupported "erofs: chunk indexes not supported")
      else (do
        let aligned ← u64 (inode.inlineOff + 3)
        readChunks vol (inode.chunkbits vol) (aligned / 4 * 4) stop off) := rfl

theorem answered_readChunked (hdvd : vol.blockSize ∣ off) (hstop : off < stop)
    (hsize : stop ≤ inode.size) (hspan : stop ≤ off + vol.blockSize ∨ inode.size ≤ maxBootFileBytes) :
    Answered (readChunked vol inode off stop) ↔ (ChunksAccepted vol inode →
      inode.inlineOff + 3 < 2 ^ 64 ∧
        (off / 2 ^ inode.chunkbits vol + 1) * 2 ^ inode.chunkbits vol < 2 ^ 64 ∧
        (inode.inlineOff + 3) / 4 * 4 + off / 2 ^ inode.chunkbits vol * 4 < 2 ^ 64) := by
  have hlater : inode.chunkbits vol ≤ 40 → ∀ q, off < q → q < stop →
      2 ^ inode.chunkbits vol ∣ q →
        (q / 2 ^ inode.chunkbits vol + 1) * 2 ^ inode.chunkbits vol < 2 ^ 64 := by
    intro hbits q hoff hq hchunk
    rcases hspan with hspan | hspan
    · have hblock : vol.blockSize ∣ q :=
        Nat.dvd_trans (Nat.pow_dvd_pow 2 (Nat.le_add_right ..)) hchunk
      have hle := multiple_add_le hdvd hblock hoff
      omega
    · have hmax : maxBootFileBytes < 2 ^ 30 := by decide
      have hle : 2 ^ inode.chunkbits vol ≤ 2 ^ 40 := Nat.pow_le_pow_right (by decide) hbits
      rw [Nat.succ_mul, Nat.div_mul_cancel hchunk]
      omega
  rw [readChunked_def]
  constructor
  · intro h haccepted
    have hbits := haccepted.chunkbits_le
    rw [if_neg (not_not.mpr haccepted.known), if_neg (not_not.mpr haccepted.narrow),
      if_neg (Nat.not_lt.mpr hbits), if_neg (not_not.mpr haccepted.addresses), answered_bind,
      answered_fits] at h
    refine ⟨h.1, ?_⟩
    exact (answered_readChunks hbits (hlater hbits) hstop).mp (h.2 _ (fits_eq_ok.mpr ⟨h.1, rfl⟩))
  · intro h
    refine Answered.ite (fun _ => trivial) fun hknown => ?_
    refine Answered.ite (fun _ => trivial) fun hnarrow => ?_
    refine Answered.ite (fun _ => trivial) fun hbits => ?_
    refine Answered.ite (fun _ => trivial) fun haddresses => ?_
    have hbits := Nat.le_of_not_lt hbits
    obtain ⟨halign, hsums⟩ :=
      h ⟨not_not.mp hknown, not_not.mp hnarrow, hbits, not_not.mp haddresses⟩
    refine Answered.bind (answered_fits.mpr halign) fun aligned haligned => ?_
    obtain ⟨-, rfl⟩ := fits_eq_ok.mp haligned
    exact (answered_readChunks hbits (hlater hbits) hstop).mpr hsums

/-- The data of a block, or of a whole small file, is read exactly when the sums in
front of its first piece fit. -/
theorem answered_layoutData {ρ : Type} (codecs : Codecs ρ) (hinode : inode.Bounded)
    (hdvd : vol.blockSize ∣ off) (hstop : off < stop) (hsize : stop ≤ inode.size)
    (hspan : stop ≤ off + vol.blockSize ∨ inode.size ≤ maxBootFileBytes) :
    Answered (layoutData codecs vol inode off stop) ↔ DataFits vol inode off := by
  have hbase : inode.rawBlkaddr * vol.blockSize < 2 ^ 48 := blocks_lt hinode.rawBlkaddr_lt
  have hpast : inode.size / vol.blockSize * vol.blockSize ≤ off →
      off = inode.size / vol.blockSize * vol.blockSize := by
    intro hle
    have hdiv := Nat.div_add_mod inode.size vol.blockSize
    have hmod := Nat.mod_lt inode.size vol.blockSize_pos
    have hmul := Nat.mul_comm (inode.size / vol.blockSize) vol.blockSize
    exact Nat.le_antisymm (multiple_le hdvd (Nat.dvd_mul_left ..) (by omega)) hle
  unfold layoutData readFlat
  by_cases hcompressed : inode.layout = compressedFull ∨ inode.layout = compressedCompact
  · rw [if_pos hcompressed, answered_bind, answered_decodeInode]
    refine (and_iff_left fun _ _ => answered_okOr ..).trans ⟨fun h => ?_, fun h => ?_⟩
    · refine ⟨?_, ?_, ?_, fun _ => h⟩
      · intro hlayout
        rw [hlayout] at hcompressed
        exact absurd hcompressed (by decide)
      · intro hlayout
        rw [hlayout] at hcompressed
        exact absurd hcompressed (by decide)
      · intro hlayout
        rw [hlayout] at hcompressed
        exact absurd hcompressed (by decide)
    · exact h.index hcompressed
  · rw [if_neg hcompressed]
    by_cases hplain : inode.layout = flatPlain
    · rw [if_pos hplain, answered_bind, lift_self, answered_fits]
      refine ⟨fun h => ?_, fun h => ?_⟩
      · have hsum := (answered_bind.mp (h.2 _ (fits_eq_ok.mpr ⟨h.1, rfl⟩))).1
        refine ⟨fun _ => answered_fits.mp hsum, ?_, ?_, fun h => absurd h hcompressed⟩
        · intro hlayout
          exact absurd (hplain.symm.trans hlayout) (by decide)
        · intro hlayout
          exact absurd (hplain.symm.trans hlayout) (by decide)
      · refine ⟨by omega, ?_⟩
        intro base hok
        obtain ⟨-, rfl⟩ := fits_eq_ok.mp hok
        exact Answered.bind (answered_fits.mpr (h.plain hplain)) fun _ _ => answered_readAt ..
    · rw [if_neg hplain]
      by_cases hinline : inode.layout = flatInline
      · rw [if_pos hinline, answered_bind, lift_self, answered_fits]
        have hread : Answered (readInline vol inode (inode.size / vol.blockSize * vol.blockSize)
            (inode.rawBlkaddr * vol.blockSize) stop off) ↔ _ :=
          answered_readInline hinode.inlineOff_lt hpast hstop
        refine ⟨fun h => ?_, fun h => ?_⟩
        · have hsums := hread.mp (h.2 _ (fits_eq_ok.mpr ⟨h.1, rfl⟩))
          refine ⟨fun h => absurd h hplain, fun _ => hsums, ?_, fun h => absurd h hcompressed⟩
          intro hlayout
          exact absurd (hinline.symm.trans hlayout) (by decide)
        · refine ⟨by omega, ?_⟩
          intro base hok
          obtain ⟨-, rfl⟩ := fits_eq_ok.mp hok
          exact hread.mpr (h.whole hinline)
      · rw [if_neg hinline]
        by_cases hchunk : inode.layout = chunkBased
        · rw [if_pos hchunk, answered_readChunked hdvd hstop hsize hspan]
          refine ⟨fun h => ?_, fun h => h.chunk hchunk⟩
          exact ⟨fun h => absurd h hplain, fun h => absurd h hinline, fun _ => h,
            fun h => absurd h hcompressed⟩
        · rw [if_neg hchunk]
          refine iff_of_true trivial ?_
          exact ⟨fun h => absurd h hplain, fun h => absurd h hinline, fun h => absurd h hchunk,
            fun h => absurd h hcompressed⟩

end Data

end Lamfold.Erofs
