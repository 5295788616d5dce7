import Lamfold.ErofsPlacement
import Lamfold.ErofsRoundTrip

/-!
The full and the compact index of one list of pclusters. The full index stores a
block address for every pcluster and its block count with the first NONHEAD after
it, which the reader skips; so both indexes resolve to the same heads exactly
when every pcluster is one block.
-/
namespace Lamfold.Erofs

open Effects Bytes

variable {lcsize : ℕ} {big : Bool}

/-- The entry of the lcluster that a pcluster opens. -/
def headEntry (ty : LcType) (clusterofs blkaddr : ℕ) : List UInt8 :=
  leBytes 2 ty.bits ++ leBytes 2 clusterofs ++ leBytes 4 blkaddr

/-- The entry of a NONHEAD lcluster: the value that the compact index has as well,
and the distance to the next head. -/
def nonheadEntry (value next : ℕ) : List UInt8 :=
  leBytes 2 LcType.nonhead.bits ++ leBytes 2 0 ++ leBytes 2 value ++ leBytes 2 next

def nonheadEntries (next : ℕ → ℕ) (i : ℕ) : List ℕ → List UInt8
  | [] => []
  | v :: vs => nonheadEntry v (next i) ++ nonheadEntries next (i + 1) vs

/-- The entries of the pclusters from lcluster `i` on, back to back from block
`addr` on. -/
def encodeFull (next : ℕ → ℕ) (i addr : ℕ) : List (Pcluster lcsize big) → List UInt8
  | [] => []
  | p :: ps =>
      headEntry p.ty p.clusterofs addr ++ nonheadEntries next (i + 1) p.nonheads ++
        encodeFull next (i + p.lclusters) (addr + p.blocks) ps

theorem headEntry_length (ty : LcType) (clusterofs blkaddr : ℕ) :
    (headEntry ty clusterofs blkaddr).length = 8 := by
  simp [headEntry]

theorem nonheadEntry_length (value next : ℕ) : (nonheadEntry value next).length = 8 := by
  simp [nonheadEntry]

theorem nonheadEntries_length (next : ℕ → ℕ) (i : ℕ) (vs : List ℕ) :
    (nonheadEntries next i vs).length = 8 * vs.length := by
  induction vs generalizing i with
  | nil => rfl
  | cons v vs ih =>
    rw [nonheadEntries, List.length_append, nonheadEntry_length, ih, List.length_cons]
    omega

/-- What the full index says of a head: its block count is always one. -/
def Head.oneBlock (h : Head) : Head := { h with cblkcnt := 1 }

section Read

variable {src : Source} {idx0 i : ℕ} {heads : List Head}

theorem ofBits_bits (ty : LcType) : LcType.ofBits ty.bits = ty := by cases ty <;> rfl

theorem bits_lt (ty : LcType) : ty.bits < 256 ^ 2 := by cases ty <;> decide

theorem bits_and_liHole (ty : LcType) : ty.bits &&& liHole = 0 := by cases ty <;> decide

/-- One entry is read, at its place in the index. -/
theorem fullEntries_read {e : List UInt8} {count : ℕ}
    (he : slice src.content (idx0 + i * 8) 8 = some e) :
    fullEntries src idx0 lcsize i (count + 1) heads =
      if LcType.ofBits (leNat (e.take 2)) = .nonhead then
        fullEntries src idx0 lcsize (i + 1) count heads
      else if leNat (e.take 2) &&& liHole ≠ 0 then
        fail (.unsupported "erofs: hole pcluster not supported")
      else (do
        let start ← headStart lcsize heads i (leNat ((e.drop 2).take 2))
        fullEntries src idx0 lcsize (i + 1) count
          (heads ++ [⟨start, .ofBits (leNat (e.take 2)), leNat (e.drop 4), 1⟩])) := by
  have hle := (slice_eq_some.mp he).1
  have hlen := src.length_lt
  have hoffset : u64 (i * 8) = .ok (i * 8) := fits_eq_ok.mpr ⟨by omega, rfl⟩
  have hsum : u64 (idx0 + i * 8) = .ok (idx0 + i * 8) := fits_eq_ok.mpr ⟨by omega, rfl⟩
  have hread : src.readAt (idx0 + i * 8) 8 = .ok e := Source.readAt_eq_ok.mpr he
  simp only [fullEntries, hoffset, hsum, hread, ok_bind, lift_self]

theorem fullEntries_nonhead {value next count : ℕ}
    (he : slice src.content (idx0 + i * 8) 8 = some (nonheadEntry value next)) :
    fullEntries src idx0 lcsize i (count + 1) heads =
      fullEntries src idx0 lcsize (i + 1) count heads := by
  have htake : (nonheadEntry value next).take 2 = leBytes 2 LcType.nonhead.bits := by
    unfold nonheadEntry
    rw [List.append_assoc, List.append_assoc, List.take_left' (by simp)]
  rw [fullEntries_read he, htake, leNat_leBytes (bits_lt _), ofBits_bits, if_pos rfl]

theorem fullEntries_head {ty : LcType} {clusterofs blkaddr count : ℕ} (hty : ty ≠ .nonhead)
    (hofs : clusterofs < 2 ^ 12) (hblkaddr : blkaddr < 2 ^ 32)
    (he : slice src.content (idx0 + i * 8) 8 = some (headEntry ty clusterofs blkaddr)) :
    fullEntries src idx0 lcsize i (count + 1) heads = (do
      let start ← headStart lcsize heads i clusterofs
      fullEntries src idx0 lcsize (i + 1) count (heads ++ [⟨start, ty, blkaddr, 1⟩])) := by
  have htake : (headEntry ty clusterofs blkaddr).take 2 = leBytes 2 ty.bits := by
    unfold headEntry
    rw [List.append_assoc, List.take_left' (by simp)]
  have hmid : ((headEntry ty clusterofs blkaddr).drop 2).take 2 = leBytes 2 clusterofs := by
    unfold headEntry
    rw [List.append_assoc, List.drop_left' (by simp), List.take_left' (by simp)]
  have hdrop : (headEntry ty clusterofs blkaddr).drop 4 = leBytes 4 blkaddr := by
    unfold headEntry
    rw [List.drop_left' (by simp)]
  rw [fullEntries_read he, htake, hmid, hdrop, leNat_leBytes (bits_lt _), ofBits_bits,
    if_neg hty, bits_and_liHole, if_neg (not_not.mpr rfl), leNat_leBytes (by omega),
    leNat_leBytes hblkaddr]

/-- The NONHEADs of a pcluster are skipped, the one with its block count as well. -/
theorem fullEntries_nonheads (next : ℕ → ℕ) (vs : List ℕ) (count : ℕ) {pre post : List UInt8}
    (hsrc : src.content = pre ++ nonheadEntries next i vs ++ post)
    (hpre : idx0 + i * 8 = pre.length) :
    fullEntries src idx0 lcsize i (vs.length + count) heads =
      fullEntries src idx0 lcsize (i + vs.length) count heads := by
  induction vs generalizing i pre with
  | nil => rw [List.length_nil, Nat.zero_add, Nat.add_zero]
  | cons v vs ih =>
    have hsplit : src.content = pre ++ nonheadEntry v (next i) ++
        (nonheadEntries next (i + 1) vs ++ post) := by
      rw [hsrc, nonheadEntries]
      simp only [List.append_assoc]
    have hnext : idx0 + (i + 1) * 8 = (pre ++ nonheadEntry v (next i)).length := by
      rw [List.length_append, nonheadEntry_length]
      omega
    have he : slice src.content (idx0 + i * 8) 8 = some (nonheadEntry v (next i)) :=
      slice_of_append hsplit hpre (nonheadEntry_length v (next i)).symm
    rw [List.length_cons, Nat.add_right_comm, fullEntries_nonhead he,
      ih (hsplit.trans (List.append_assoc _ _ _).symm) hnext,
      Nat.add_assoc, Nat.add_comm 1]

/-- A written pcluster is read back as a head of one block. -/
theorem fullEntries_pcluster (next : ℕ → ℕ) (hlc : lcsize ≤ 2 ^ 12) {addr : ℕ} (count : ℕ)
    (p : Pcluster lcsize big) {pre post : List UInt8}
    (hsrc : src.content = pre ++ (headEntry p.ty p.clusterofs addr ++
      nonheadEntries next (i + 1) p.nonheads) ++ post)
    (hpre : idx0 + i * 8 = pre.length) (haddr : addr < 2 ^ 32)
    (hstart : headStart lcsize heads i p.clusterofs = .ok (i * lcsize + p.clusterofs)) :
    fullEntries src idx0 lcsize i (p.lclusters + count) heads =
      fullEntries src idx0 lcsize (i + p.lclusters) count
        (heads ++ [⟨i * lcsize + p.clusterofs, p.ty, addr, 1⟩]) := by
  have hsplit : src.content = pre ++ headEntry p.ty p.clusterofs addr ++
      (nonheadEntries next (i + 1) p.nonheads ++ post) := by
    rw [hsrc]
    simp only [List.append_assoc]
  have hnext : idx0 + (i + 1) * 8 = (pre ++ headEntry p.ty p.clusterofs addr).length := by
    rw [List.length_append, headEntry_length]
    omega
  have he : slice src.content (idx0 + i * 8) 8 = some (headEntry p.ty p.clusterofs addr) :=
    slice_of_append hsplit hpre (headEntry_length _ _ _).symm
  have hofs : p.clusterofs < 2 ^ 12 := Nat.lt_of_lt_of_le p.clusterofs_lt hlc
  have hcount : p.lclusters + count = p.nonheads.length + count + 1 := by
    unfold Pcluster.lclusters
    omega
  have hlast : i + p.lclusters = i + 1 + p.nonheads.length := by
    unfold Pcluster.lclusters
    omega
  rw [hcount, fullEntries_head p.ty_ne hofs haddr he, hstart, ok_bind, hlast]
  exact fullEntries_nonheads next p.nonheads count
    (hsplit.trans (List.append_assoc _ _ _).symm) hnext

/-- A written full index is read back as its pclusters, each of one block. -/
theorem fullEntries_encodeFull (next : ℕ → ℕ) (hlc : lcsize ≤ 2 ^ 12) {addr : ℕ}
    (ps : List (Pcluster lcsize big)) {pre post : List UInt8}
    (hsrc : src.content = pre ++ encodeFull next i addr ps ++ post)
    (hpre : idx0 + i * 8 = pre.length) (hlen : i + (allCodes ps).length ≤ 2 ^ 28)
    (hlt : ∀ h ∈ headsOf i addr ps, h.blkaddr < 2 ^ 32)
    (hfirst : heads = [] → i = 0 ∧ ∀ p ∈ ps.head?, p.clusterofs = 0) :
    fullEntries src idx0 lcsize i (allCodes ps).length heads =
      .ok (heads ++ (headsOf i addr ps).map Head.oneBlock) := by
  induction ps generalizing i addr heads pre with
  | nil =>
    rw [headsOf, List.map_nil, List.append_nil]
    rfl
  | cons p ps ih =>
    rw [allCodes_cons, List.length_append, Pcluster.codes_length] at hlen ⊢
    have hpos : 0 < p.lclusters := by
      unfold Pcluster.lclusters
      omega
    have hzero : heads = [] → i * lcsize + p.clusterofs = 0 := by
      intro hnil
      obtain ⟨rfl, hp⟩ := hfirst hnil
      rw [hp p rfl, Nat.zero_mul]
    have hstart : headStart lcsize heads i p.clusterofs = .ok (i * lcsize + p.clusterofs) :=
      headStart_eq hzero (start_lt (by omega) hlen hlc p.clusterofs_lt)
    have hsplit : src.content = pre ++ (headEntry p.ty p.clusterofs addr ++
        nonheadEntries next (i + 1) p.nonheads) ++
          (encodeFull next (i + p.lclusters) (addr + p.blocks) ps ++ post) := by
      rw [hsrc, encodeFull]
      simp only [List.append_assoc]
    have hnext : idx0 + (i + p.lclusters) * 8 = (pre ++ (headEntry p.ty p.clusterofs addr ++
        nonheadEntries next (i + 1) p.nonheads)).length := by
      rw [List.length_append, List.length_append, headEntry_length, nonheadEntries_length,
        Pcluster.lclusters]
      omega
    have hrest : ∀ h ∈ headsOf (i + p.lclusters) (addr + p.blocks) ps, h.blkaddr < 2 ^ 32 :=
      fun h hh => hlt h (List.mem_cons_of_mem _ hh)
    rw [fullEntries_pcluster next hlc _ p hsplit hpre (hlt _ List.mem_cons_self) hstart,
      ih (hsplit.trans (List.append_assoc _ _ _).symm) hnext (by omega) hrest (by simp), headsOf,
      List.append_assoc]
    rfl

end Read

/-- A compressed inode whose map header is `hdr`, at `mh`, and that has `n` lclusters
of `lcsize` bytes, as far as the reader supports them in both indexes. -/
structure Indexed (vol : Volume) (inode : Inode) (hdr : MapHeader) (mh lcsize n : ℕ) : Prop where
  header_off : mapHeaderOff inode = .ok mh
  header : readMapHeader vol mh = .ok hdr
  whole : hdr.clusterbits &&& clusterbitsWholeFileFragment = 0
  supported : hdr.advise &&&
    (adviseInlinePcluster ||| adviseInterlacedPcluster ||| adviseFragment) = 0
  lcsize_eq : lcsize = 2 ^ (vol.blkszbits + (hdr.clusterbits &&& 0x0f))
  lcsize_le : lcsize ≤ 2 ^ compactLobits
  lclusters : divCeil inode.size lcsize = n

/-- The full index of the inode describes the pclusters `ps` from block `addr` on. -/
structure FullFile (vol : Volume) (inode : Inode) (hdr : MapHeader) (mh lcsize : ℕ)
    (next : ℕ → ℕ) (addr : ℕ) (ps : List (Pcluster lcsize big)) : Prop extends
    Indexed vol inode hdr mh lcsize (allCodes ps).length where
  layout : inode.layout = compressedFull
  big_eq : isBig hdr.advise = big
  stored : slice vol.src.content (mh + legacyHeaderSize) (8 * (allCodes ps).length) =
    some (encodeFull next 0 addr ps)

/-- The compact index of the inode describes the pclusters `ps` from block `addr` on. -/
structure CompactFile (vol : Volume) (inode : Inode) (hdr : MapHeader) (mh lcsize pad : ℕ)
    (base : ℕ → ℕ) (addr : ℕ) (ps : List (Pcluster lcsize (isBig hdr.advise))) : Prop extends
    Indexed vol inode hdr mh lcsize (allCodes ps).length where
  layout : inode.layout = compressedCompact
  compacted : hdr.advise &&& adviseCompacted2b ≠ 0
  written : Written vol.src lcsize hdr.advise (mh + 8) pad base addr ps

section Files

variable {vol : Volume} {inode : Inode} {hdr : MapHeader} {mh n addr : ℕ}

theorem Indexed.lcbits_le (h : Indexed vol inode hdr mh lcsize n) :
    vol.blkszbits + (hdr.clusterbits &&& 0x0f) ≤ compactLobits := by
  have hle := h.lcsize_le
  rw [h.lcsize_eq] at hle
  exact (Nat.pow_le_pow_iff_right (by decide)).mp hle

/-- A file within the size cap has few lclusters. -/
theorem Indexed.lclusters_le (h : Indexed vol inode hdr mh lcsize n)
    (hsize : inode.size ≤ maxBootFileBytes) : n ≤ 2 ^ 20 := by
  have hlc : 2 ^ 9 ≤ lcsize := by
    rw [h.lcsize_eq]
    exact Nat.pow_le_pow_right (by decide) (Nat.le_trans vol.blkszbits_range.1 (Nat.le_add_right _ _))
  have hn := h.lclusters
  by_contra hlt
  have hmul : 2 ^ 20 * lcsize < inode.size := by
    rw [← lt_divCeil_iff (by omega), hn]
    omega
  have hbig : 2 ^ 20 * 2 ^ 9 ≤ 2 ^ 20 * lcsize := Nat.mul_le_mul_left _ hlc
  unfold maxBootFileBytes at hsize
  omega

/-- The size cap is checked before the header and the index are read. -/
theorem Indexed.readHeads_large (h : Indexed vol inode hdr mh lcsize n)
    (hsize : maxBootFileBytes < inode.size) :
    readHeads vol inode = fail (.fileTooLarge inode.size maxBootFileBytes) := by
  have hcap : checkedFullReadLen inode.size = fail (.fileTooLarge inode.size maxBootFileBytes) :=
    checkedLen_of_lt hsize
  rw [readHeads, h.header_off, lift_ok_bind, hcap]
  rfl

theorem Indexed.readHeads_eq (h : Indexed vol inode hdr mh lcsize n)
    (hsize : inode.size ≤ maxBootFileBytes) {heads : List Head}
    (hheads : buildHeads vol inode hdr mh = .ok heads) : readHeads vol inode = .ok (hdr, heads) := by
  have hcap : checkedFullReadLen inode.size = .ok inode.size :=
    checkedFullReadLen_eq_ok.mpr ⟨hsize, rfl⟩
  rw [readHeads, h.header_off, lift_ok_bind, hcap, lift_ok_bind, h.header, ok_bind, hheads]
  rfl

/-- The heads are those that the index of the layout gives. -/
theorem Indexed.buildHeads_eq (h : Indexed vol inode hdr mh lcsize n) :
    buildHeads vol inode hdr mh =
      if inode.layout = compressedFull then buildHeadsFull vol.src mh lcsize n
      else if inode.layout = compressedCompact then
        if hdr.advise &&& adviseCompacted2b = 0 then
          fail (.unsupported "erofs: all-4B compact index (COMPACTED_2B clear) not supported")
        else (do
          let ebase ← u64 (mh + 8)
          buildHeadsCompact vol.src ebase lcsize n hdr.advise)
      else fail (.corrupt "erofs: inode is not compressed") := by
  have hlc := h.lcbits_le
  have hrefused : ¬(hdr.clusterbits &&& clusterbitsWholeFileFragment ≠ 0 ∨ hdr.advise &&&
      (adviseInlinePcluster ||| adviseInterlacedPcluster ||| adviseFragment) ≠ 0) := by
    rw [h.whole, h.supported]
    simp
  have hlarge : ¬vol.blkszbits + (hdr.clusterbits &&& 0x0f) > 30 := by
    unfold compactLobits at hlc
    omega
  have hpacked : ¬vol.blkszbits + (hdr.clusterbits &&& 0x0f) > compactLobits := by omega
  rw [buildHeads]
  simp only [if_neg hrefused, if_neg hlarge, if_neg hpacked, ← h.lcsize_eq, h.lclusters, lift_self]

theorem FullFile.readHeads_eq {next : ℕ → ℕ} {ps : List (Pcluster lcsize big)}
    (h : FullFile vol inode hdr mh lcsize next addr ps) (hsize : inode.size ≤ maxBootFileBytes)
    (hfirst : ∀ p ∈ ps.head?, p.clusterofs = 0)
    (hlt : ∀ h ∈ headsOf 0 addr ps, h.blkaddr < 2 ^ 32) :
    readHeads vol inode = .ok (hdr, (headsOf 0 addr ps).map Head.oneBlock) := by
  obtain ⟨hle, hbytes⟩ := slice_eq_some.mp h.stored
  have hlen := vol.src.length_lt
  have hidx0 : u64 (mh + legacyHeaderSize) = .ok (mh + legacyHeaderSize) :=
    fits_eq_ok.mpr ⟨by omega, rfl⟩
  have hsplit : vol.src.content = vol.src.content.take (mh + legacyHeaderSize) ++
      encodeFull next 0 addr ps ++ (vol.src.content.drop (mh + legacyHeaderSize)).drop
        (8 * (allCodes ps).length) := by
    rw [← hbytes, List.append_assoc, List.take_append_drop, List.take_append_drop]
  have hpre : mh + legacyHeaderSize + 0 * 8 =
      (vol.src.content.take (mh + legacyHeaderSize)).length := by
    rw [List.length_take]
    omega
  have hn := h.lclusters_le hsize
  have hfull : fullEntries vol.src (mh + legacyHeaderSize) lcsize 0 (allCodes ps).length [] =
      .ok ([] ++ (headsOf 0 addr ps).map Head.oneBlock) :=
    fullEntries_encodeFull next h.lcsize_le ps hsplit hpre (by omega) hlt fun _ => ⟨rfl, hfirst⟩
  apply h.toIndexed.readHeads_eq hsize
  rw [h.toIndexed.buildHeads_eq, if_pos h.layout, buildHeadsFull, hidx0, lift_ok_bind, hfull,
    List.nil_append]

theorem CompactFile.readHeads_eq {pad : ℕ} {base : ℕ → ℕ}
    {ps : List (Pcluster lcsize (isBig hdr.advise))}
    (h : CompactFile vol inode hdr mh lcsize pad base addr ps)
    (hsize : inode.size ≤ maxBootFileBytes) :
    readHeads vol inode = .ok (hdr, headsOf 0 addr ps) := by
  have hlayout : ¬inode.layout = compressedFull := by
    rw [h.layout]
    decide
  have hle := (slice_eq_some.mp h.written.stored).1
  have hlen := vol.src.length_lt
  have hebase : u64 (mh + 8) = .ok (mh + 8) := fits_eq_ok.mpr ⟨by omega, rfl⟩
  have hcap : compactLen (mh + 8) (allCodes ps).length ≤ maxBootFileBytes := by
    have hn := h.lclusters_le hsize
    have hpacked := packedLclusters_le (mh + 8) (allCodes ps).length
    unfold compactLen indexLen divCeil maxBootFileBytes
    omega
  apply h.toIndexed.readHeads_eq hsize
  rw [h.toIndexed.buildHeads_eq, if_neg hlayout, if_pos h.layout, if_neg h.compacted, hebase,
    ok_bind, h.written.read hcap]
  exact h.written.resolve hcap

end Files

theorem map_oneBlock_iff (i addr : ℕ) (ps : List (Pcluster lcsize big)) :
    (headsOf i addr ps).map Head.oneBlock = headsOf i addr ps ↔ ∀ p ∈ ps, p.blocks = 1 := by
  induction ps generalizing i addr with
  | nil => simp [headsOf]
  | cons p ps ih =>
    rw [headsOf, List.map_cons, List.cons.injEq, ih, List.forall_mem_cons]
    refine and_congr_left fun _ => ?_
    simp only [Head.oneBlock, Head.mk.injEq, true_and]
    exact eq_comm

section Decode

variable {ρ : Type}

/-- Two volumes hold the same data for these heads, and decode it the same way. -/
structure SameData (vol vol' : Volume) (hdr hdr' : MapHeader) (heads : List Head) : Prop where
  algorithmtype : hdr.algorithmtype = hdr'.algorithmtype
  lzmaDictSize : vol.lzmaDictSize = vol'.lzmaDictSize
  lz4ZeroPadding : vol.lz4ZeroPadding = vol'.lz4ZeroPadding
  spans : ∀ h ∈ heads, readSpan vol h.blkaddr h.cblkcnt = readSpan vol' h.blkaddr h.cblkcnt

theorem decodeOwn_congr {codecs : Codecs ρ} {vol vol' : Volume} {hdr hdr' : MapHeader}
    {heads : List Head}
    (hsame : SameData vol vol' hdr hdr' heads) {h : Head} (hh : h ∈ heads) (outlen : ℕ)
    (out : List UInt8) :
    decodeOwn codecs vol hdr h outlen out = decodeOwn codecs vol' hdr' h outlen out := by
  have halgo : hdr.algo h.ty = hdr'.algo h.ty := by
    unfold MapHeader.algo MapHeader.head1Algo MapHeader.head2Algo
    rw [hsame.algorithmtype]
  rw [decodeOwn, decodeOwn, hsame.spans h hh, halgo, hsame.lzmaDictSize, hsame.lz4ZeroPadding]

theorem decodeHeads_congr {codecs : Codecs ρ} {vol vol' : Volume} {hdr hdr' : MapHeader}
    {heads : List Head}
    (hsame : SameData vol vol' hdr hdr' heads) (iSize : ℕ) (out : List UInt8) {rest : List Head}
    (hrest : ∀ h ∈ rest, h ∈ heads) :
    decodeHeads codecs vol hdr iSize out rest = decodeHeads codecs vol' hdr' iSize out rest := by
  induction rest generalizing out with
  | nil => rfl
  | cons h rest ih =>
    have htail : ∀ g ∈ rest, g ∈ heads := fun g hg => hrest g (List.mem_cons_of_mem h hg)
    rw [decodeHeads, decodeHeads, ih out htail,
      decodeOwn_congr hsame (hrest h List.mem_cons_self)]
    simp only [ih _ htail]

/-- The full and the compact index of the same pclusters give the same heads
exactly when the file is too large for either or every pcluster is one block, and
the file then decodes to the same bytes. -/
theorem indexes_agree_iff (codecs : Codecs ρ) {vol vol' : Volume} {inode inode' : Inode}
    {hdr hdr' : MapHeader} {mh mh' lcsize pad addr : ℕ} {next base : ℕ → ℕ}
    {ps : List (Pcluster lcsize (isBig hdr'.advise))}
    (hfull : FullFile vol inode hdr mh lcsize next addr ps)
    (hcompact : CompactFile vol' inode' hdr' mh' lcsize pad base addr ps)
    (hsize : inode.size = inode'.size) :
    ((readHeads vol inode).map Prod.snd = (readHeads vol' inode').map Prod.snd ↔
      maxBootFileBytes < inode.size ∨ ∀ p ∈ ps, p.blocks = 1) ∧
    (SameData vol vol' hdr hdr' (headsOf 0 addr ps) →
      (maxBootFileBytes < inode.size ∨ ∀ p ∈ ps, p.blocks = 1) →
      decodeInode codecs vol inode = decodeInode codecs vol' inode') := by
  by_cases hlarge : maxBootFileBytes < inode.size
  · have heq : readHeads vol inode = readHeads vol' inode' := by
      rw [hfull.readHeads_large hlarge, hcompact.readHeads_large (hsize ▸ hlarge), hsize]
    have hfail := hcompact.readHeads_large (hsize ▸ hlarge)
    refine ⟨iff_of_true (by rw [heq]) (Or.inl hlarge), ?_⟩
    intro _ _
    rw [decodeInode, decodeInode, heq, hfail]
    rfl
  · have hle : inode.size ≤ maxBootFileBytes := Nat.le_of_not_lt hlarge
    have hw := hcompact.written
    rw [hfull.readHeads_eq hle hw.first hw.addr_lt, hcompact.readHeads_eq (hsize ▸ hle), decodeInode,
      decodeInode, hfull.readHeads_eq hle hw.first hw.addr_lt, hcompact.readHeads_eq (hsize ▸ hle)]
    refine ⟨?_, ?_⟩
    · rw [or_iff_right hlarge, ← map_oneBlock_iff 0 addr ps]
      exact ⟨fun h => Except.ok.inj h, fun h => congrArg Except.ok h⟩
    · intro hsame hone
      have heq := (map_oneBlock_iff 0 addr ps).mpr (hone.resolve_left hlarge)
      rw [ok_bind, ok_bind, heq, hsize]
      exact decodeHeads_congr hsame inode'.size [] fun h hh => hh

end Decode

/-- A PLAIN pcluster of two lclusters and two blocks. -/
def twoBlocks : List (Pcluster 512 (isBig 3)) :=
  [⟨.plain, 0, 2, [compactCblkcntFlag + 2], plain_ne_nonhead, lcluster_pos, by decide,
    by decide, by decide, rfl, by simp⟩]

/-- A volume whose root is a file of 1024 bytes with this index, and whose blocks 3
and 4 hold the file. -/
def twoBlocksImage (format : UInt8) (index : List UInt8) : List UInt8 :=
  List.replicate 1024 0 ++ tinySuperblock ++
    [format, 0, 0, 0, 0, 0x80, 0, 0, 0, 4, 0, 0] ++ List.replicate 20 0 ++
    [0, 0, 0, 0, 3, 0, 0, 0] ++ index ++ List.replicate (344 - index.length) 0 ++
    List.replicate 1024 0x41

/-- The full index: 8 reserved bytes, then an entry for each lcluster. -/
def twoBlocksFull : Source where
  content := twoBlocksImage 2 (List.replicate 8 0 ++ encodeFull (fun _ => 0) 0 3 twoBlocks)
  length_lt := by decide +kernel

def twoBlocksCompact : Source where
  content := twoBlocksImage 6 (encodeIndex 1192 0 (fun _ => 3) (allCodes twoBlocks))
  length_lt := by decide +kernel

def twoBlocksInode (layout : ℕ) : Inode := ⟨.regular, 1024, 0x8000, layout, 0, 1184⟩

theorem twoBlocks_indexed {src : Source} {layout : ℕ}
    (hheader : readMapHeader (tinyVolume src) 1184 = .ok ⟨3, 0, 0⟩) :
    Indexed (tinyVolume src) (twoBlocksInode layout) ⟨3, 0, 0⟩ 1184 512 2 where
  header_off := bind_eq_ok.mpr
    ⟨1191, fits_eq_ok.mpr ⟨show 1184 + 7 < 2 ^ 64 by decide, rfl⟩, rfl⟩
  header := hheader
  whole := rfl
  supported := rfl
  lcsize_eq := rfl
  lcsize_le := show 512 ≤ 2 ^ 12 by decide
  lclusters := show divCeil 1024 512 = 2 by decide

theorem twoBlocks_full : FullFile (tinyVolume twoBlocksFull) (twoBlocksInode compressedFull)
    ⟨3, 0, 0⟩ 1184 512 (fun _ => 0) 3 twoBlocks where
  toIndexed := twoBlocks_indexed (by decide +kernel)
  layout := rfl
  big_eq := rfl
  stored := by decide +kernel

theorem twoBlocks_compact : CompactFile (tinyVolume twoBlocksCompact)
    (twoBlocksInode compressedCompact) ⟨3, 0, 0⟩ 1184 512 0 (fun _ => 3) 3 twoBlocks where
  toIndexed := twoBlocks_indexed (by decide +kernel)
  layout := rfl
  compacted := by decide
  written := by
    refine ⟨⟨9, by decide, by decide, rfl⟩, by decide, ?_, by decide, ?_, ?_, rfl, ?_⟩
    · intro p hp
      obtain rfl := Option.some.inj hp
      rfl
    · intro head hhead
      obtain rfl := List.mem_singleton.mp hhead
      show 3 < 2 ^ 32
      decide
    · intro g
      decide
    · decide +kernel

theorem indexes_agree_iff_twoBlocks :
    (readHeads (tinyVolume twoBlocksFull) (twoBlocksInode compressedFull)).map Prod.snd ≠
      (readHeads (tinyVolume twoBlocksCompact) (twoBlocksInode compressedCompact)).map Prod.snd := by
  have hsize : (twoBlocksInode compressedFull).size = (twoBlocksInode compressedCompact).size := rfl
  have hiff := (indexes_agree_iff emptyFrames twoBlocks_full twoBlocks_compact hsize).1
  intro heq
  rcases hiff.mp heq with hlarge | hone
  · exact absurd hlarge (by decide)
  · exact absurd (hone _ List.mem_cons_self) (by decide)

/-- Both images hold the same file, but with the full index it cannot be read. -/
theorem decodeInode_twoBlocks :
    (openVolume twoBlocksFull = .ok (tinyVolume twoBlocksFull) ∧
      readInode (tinyVolume twoBlocksFull) 4 = .ok (twoBlocksInode compressedFull) ∧
      FullFile (tinyVolume twoBlocksFull) (twoBlocksInode compressedFull) ⟨3, 0, 0⟩ 1184 512
        (fun _ => 0) 3 twoBlocks) ∧
    (openVolume twoBlocksCompact = .ok (tinyVolume twoBlocksCompact) ∧
      readInode (tinyVolume twoBlocksCompact) 4 = .ok (twoBlocksInode compressedCompact) ∧
      CompactFile (tinyVolume twoBlocksCompact) (twoBlocksInode compressedCompact) ⟨3, 0, 0⟩ 1184
        512 0 (fun _ => 3) 3 twoBlocks) ∧
    readHeads (tinyVolume twoBlocksFull) (twoBlocksInode compressedFull) =
      .ok (⟨3, 0, 0⟩, [⟨0, .plain, 3, 1⟩]) ∧
    readHeads (tinyVolume twoBlocksCompact) (twoBlocksInode compressedCompact) =
      .ok (⟨3, 0, 0⟩, [⟨0, .plain, 3, 2⟩]) ∧
    decodeInode emptyFrames (tinyVolume twoBlocksFull) (twoBlocksInode compressedFull) =
      fail (.corrupt "erofs: plain pcluster shorter than output") ∧
    decodeInode emptyFrames (tinyVolume twoBlocksCompact) (twoBlocksInode compressedCompact) =
      .ok (List.replicate 1024 0x41) := by
  refine ⟨⟨?_, ?_, twoBlocks_full⟩, ⟨?_, ?_, twoBlocks_compact⟩, ?_, ?_, ?_, ?_⟩
  · decide +kernel
  · decide +kernel
  · decide +kernel
  · decide +kernel
  · decide +kernel
  · decide +kernel
  · decide +kernel
  · decide +kernel

end Lamfold.Erofs
