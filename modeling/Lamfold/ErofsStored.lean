import Lamfold.ErofsAgreement
import Lamfold.ErofsContent
import Lamfold.Presents

/-!
The data of EROFS files as it is stored: from a block address on, with its end behind the inode,
in chunks, or in pclusters under the full or the compact index. Under a verifier that accepts its
blocks it is read in windows.
-/
namespace Lamfold.Erofs

open Effects Bytes

variable {ρ : Type}

section Layouts

variable (codecs : Codecs ρ) (vol : Volume) (inode : Inode)

/-- Chunk `k` stands at its block address. At the null address it is zeros. -/
def ChunkStored (data : List UInt8) (k : ℕ) : Prop :=
  ∃ blkaddr chunk, chunk = (data.drop (k * 2 ^ inode.chunkbits vol)).take (2 ^ inode.chunkbits vol) ∧
    blkaddr < 2 ^ 32 ∧ slice vol.src.content (blockMap inode + k * 4) 4 = some (leBytes 4 blkaddr) ∧
    if blkaddr = nullBlkaddr then chunk = List.replicate chunk.length 0
    else slice vol.src.content (blkaddr * vol.blockSize) chunk.length = some chunk

/-- The blocks of a pcluster, as far as the device has them. -/
structure SpanAt (h : Head) (span : List UInt8) : Prop where
  span_ne : span ≠ []
  count_lt : h.cblkcnt * vol.blockSize < 2 ^ 64
  length : span.length = min (h.cblkcnt * vol.blockSize) (vol.src.len - h.blkaddr * vol.blockSize)
  stored : slice vol.src.content (h.blkaddr * vol.blockSize) span.length = some span

/-- The pclusters decode to the data, each with all that is before it. One that starts where the
file ends has no blocks. -/
inductive Packed (hdr : MapHeader) : List UInt8 → List Head → List UInt8 → Prop
  | nil {out : List UInt8} : Packed hdr out [] []
  | done {out rest : List UInt8} {h : Head} {heads : List Head} (hstart : h.start = out.length)
      (hrest : Packed hdr out heads rest) : Packed hdr out (h :: heads) rest
  | cons {out seg rest span : List UInt8} {h : Head} {heads : List Head}
      (hstart : h.start = out.length) (hne : seg ≠ []) (hspan : SpanAt vol h span)
      (hdecode : decodePcluster codecs h.ty (hdr.algo h.ty) span seg.length out vol.lzmaDictSize
        vol.lz4ZeroPadding = .ok seg)
      (hrest : Packed hdr (out ++ seg) heads rest) : Packed hdr out (h :: heads) (seg ++ rest)

/-- The index of a compressed inode has these heads. Of the full index only pclusters of one block
are read. -/
inductive IndexStored : MapHeader → List Head → Prop
  | full {hdr : MapHeader} {mh lcsize addr : ℕ} {next : ℕ → ℕ} {big : Bool}
      {ps : List (Pcluster lcsize big)} (hfile : FullFile vol inode hdr mh lcsize next addr ps)
      (hone : ∀ p ∈ ps, p.blocks = 1) (hfirst : ∀ p ∈ ps.head?, p.clusterofs = 0)
      (hlt : ∀ h ∈ headsOf 0 addr ps, h.blkaddr < 2 ^ 32) : IndexStored hdr (headsOf 0 addr ps)
  | compact {hdr : MapHeader} {mh lcsize pad addr : ℕ} {base : ℕ → ℕ}
      {ps : List (Pcluster lcsize (isBig hdr.advise))}
      (hfile : CompactFile vol inode hdr mh lcsize pad base addr ps) :
      IndexStored hdr (headsOf 0 addr ps)

/-- The data of an inode, stored in its layout. -/
inductive DataStored : List UInt8 → Prop
  | empty : DataStored []
  | plain {data : List UInt8} (hlayout : inode.layout = flatPlain)
      (hslice : slice vol.src.content (inode.rawBlkaddr * vol.blockSize) data.length = some data) :
      DataStored data
  | inline {front tail : List UInt8} (hlayout : inode.layout = flatInline)
      (hfront : front.length = inode.size / vol.blockSize * vol.blockSize)
      (hslice : front ≠ [] →
        slice vol.src.content (inode.rawBlkaddr * vol.blockSize) front.length = some front)
      (htail : tail ≠ [] → slice vol.src.content inode.inlineOff tail.length = some tail) :
      DataStored (front ++ tail)
  | chunked {data : List UInt8} (hlayout : inode.layout = chunkBased)
      (haccepted : ChunksAccepted vol inode) (hmap : inode.inlineOff + 3 < 2 ^ 64)
      (hchunks : ∀ k, k * 2 ^ inode.chunkbits vol < data.length → ChunkStored vol inode data k) :
      DataStored data
  | packed {hdr : MapHeader} {heads : List Head} {data : List UInt8}
      (hindex : IndexStored vol inode hdr heads) (hcap : data.length ≤ maxBootFileBytes)
      (hpacked : Packed codecs vol hdr [] heads data) : DataStored data

end Layouts

variable {codecs : Codecs ρ} {vol : Volume} {inode : Inode} {data : List UInt8} {off stop p : ℕ}

theorem window_append {q : ℕ} (hp : p ≤ q) (hq : q ≤ stop) :
    (data.drop p).take (q - p) ++ (data.drop q).take (stop - q) = (data.drop p).take (stop - p) := by
  have hsplit : stop - p = (q - p) + (stop - q) := by omega
  rw [hsplit, List.take_add, List.drop_drop, Nat.add_sub_cancel' hp]

theorem readInline_stored {front tail : List UInt8} {base : ℕ}
    (hslice : front ≠ [] → slice vol.src.content base front.length = some front)
    (htail : tail ≠ [] → slice vol.src.content inode.inlineOff tail.length = some tail)
    (hstop : stop ≤ (front ++ tail).length) :
    readInline vol inode front.length base stop p = .ok (((front ++ tail).drop p).take (stop - p)) := by
  have hlen := vol.src.length_lt
  rw [List.length_append] at hstop
  fun_induction readInline vol inode front.length base stop p with
  | case1 p hlt hp segEnd ih =>
    have hstored := hslice (List.ne_nil_of_length_pos (by omega))
    have hin := (slice_eq_some.mp hstored).1
    have hdisk : u64 (base + p) = .ok (base + p) := fits_eq_ok.mpr ⟨by omega, rfl⟩
    have hend : segEnd = min stop front.length := rfl
    have hseg : vol.src.readAt (base + p) (segEnd - p) = .ok ((front.drop p).take (segEnd - p)) :=
      Source.readAt_part hstored (by omega)
    have hpart : (front.drop p).take (segEnd - p) =
        ((front ++ tail).drop p).take (segEnd - p) := by
      rw [List.drop_append_of_le_length (by omega), List.take_append_of_le_length]
      rw [List.length_drop]
      omega
    rw [hdisk, lift_ok_bind, hseg, ok_bind, ih, ok_bind, hpart]
    exact congrArg Except.ok (window_append (by omega) (by omega))
  | case2 p hlt hp =>
    have hstored := htail (List.ne_nil_of_length_pos (by omega))
    have hin := (slice_eq_some.mp hstored).1
    have hdisk : u64 (inode.inlineOff + (p - front.length)) = .ok _ :=
      fits_eq_ok.mpr ⟨by omega, rfl⟩
    have hpast : front.drop p = [] := List.drop_of_length_le (by omega)
    rw [hdisk, lift_ok_bind, Source.readAt_part hstored (by omega), List.drop_append, hpast,
      List.nil_append]
  | case3 p hlt =>
    rw [Nat.sub_eq_zero_of_le (by omega), List.take_zero]
    rfl

theorem ChunkStored.read {k within n : ℕ} (h : ChunkStored vol inode data k)
    (hn : within + n ≤ 2 ^ inode.chunkbits vol)
    (hin : k * 2 ^ inode.chunkbits vol + within + n ≤ data.length) :
    readChunk vol (blockMap inode) k within n =
      .ok ((data.drop (k * 2 ^ inode.chunkbits vol + within)).take n) := by
  obtain ⟨blkaddr, chunk, hchunk, hlt, haddress, hstored⟩ := h
  have hlen := vol.src.length_lt
  have hentry := (slice_eq_some.mp haddress).1
  have hfits : u64 (blockMap inode + k * 4) = .ok _ := fits_eq_ok.mpr ⟨by omega, rfl⟩
  have hroom : within + n ≤ chunk.length := by
    rw [hchunk, List.length_take, List.length_drop]
    omega
  have hpart : (chunk.drop within).take n =
      (data.drop (k * 2 ^ inode.chunkbits vol + within)).take n := by
    rw [hchunk, List.drop_take, List.drop_drop, List.take_take, Nat.min_eq_left (by omega)]
  unfold readChunk
  rw [hfits, lift_ok_bind, Source.readAt_eq_ok.mpr haddress, ok_bind]
  dsimp only
  rw [leNat_leBytes hlt]
  split at hstored
  · rename_i hnull
    rw [if_pos hnull, ← hpart, hstored, List.drop_replicate, List.take_replicate,
      Nat.min_eq_left (by omega)]
    rfl
  · rename_i hnull
    have hblock := (slice_eq_some.mp hstored).1
    have hdisk : u64 (blkaddr * vol.blockSize + within) = .ok _ := fits_eq_ok.mpr ⟨by omega, rfl⟩
    rw [if_neg hnull, hdisk, lift_ok_bind, Source.readAt_part hstored hroom, hpart]

theorem readChunks_stored (hbits : inode.chunkbits vol ≤ 40) (hlt : data.length < 2 ^ 63)
    (hchunks : ∀ k, k * 2 ^ inode.chunkbits vol < data.length → ChunkStored vol inode data k)
    (hstop : stop ≤ data.length) :
    readChunks vol (inode.chunkbits vol) (blockMap inode) stop p =
      .ok ((data.drop p).take (stop - p)) := by
  have hsize : 2 ^ inode.chunkbits vol ≤ 2 ^ 40 := Nat.pow_le_pow_right (by decide) hbits
  have hread : ∀ k within n, within + n ≤ 2 ^ inode.chunkbits vol →
      k * 2 ^ inode.chunkbits vol + within + n ≤ data.length →
      k * 2 ^ inode.chunkbits vol < data.length →
      readChunk vol (blockMap inode) k within n =
        .ok ((data.drop (k * 2 ^ inode.chunkbits vol + within)).take n) :=
    fun k within n hn hin hk => (hchunks k hk).read hn hin
  generalize inode.chunkbits vol = chunkbits at hread hsize ⊢
  generalize blockMap inode = table at hread ⊢
  fun_induction readChunks vol chunkbits table stop p with
  | case1 p hp idx within ih =>
    dsimp only at ih ⊢
    have hpos := Nat.two_pow_pos chunkbits
    have hsplit := Nat.div_add_mod' p (2 ^ chunkbits)
    have hmod := Nat.mod_lt p hpos
    have hidx : idx = p / 2 ^ chunkbits := rfl
    have hwithin : within = p % 2 ^ chunkbits := rfl
    rw [← hidx, ← hwithin] at hsplit
    rw [← hwithin] at hmod
    rw [← hidx] at ih ⊢
    have hnext : (idx + 1) * 2 ^ chunkbits = idx * 2 ^ chunkbits + 2 ^ chunkbits := Nat.succ_mul _ _
    obtain ⟨segEnd, hend⟩ : ∃ segEnd, segEnd = min stop ((idx + 1) * 2 ^ chunkbits) := ⟨_, rfl⟩
    rw [← hend] at ih ⊢
    have hfits : u64 ((idx + 1) * 2 ^ chunkbits) = .ok _ := fits_eq_ok.mpr ⟨by omega, rfl⟩
    rw [hfits, lift_ok_bind, hread idx within (segEnd - p) (by omega) (by omega) (by omega),
      ok_bind, ih, ok_bind, hsplit]
    exact congrArg Except.ok (window_append (by omega) (by omega))
  | case2 p hp =>
    rw [Nat.sub_eq_zero_of_le (by omega), List.take_zero]
    rfl

theorem IndexStored.readHeads {hdr : MapHeader} {heads : List Head}
    (h : IndexStored vol inode hdr heads) (hsize : inode.size ≤ maxBootFileBytes) :
    Erofs.readHeads vol inode = .ok (hdr, heads) := by
  cases h with
  | @full mh lcsize addr next big ps hfile hone hfirst hlt =>
    rw [hfile.readHeads_eq hsize hfirst hlt, (map_oneBlock_iff 0 addr ps).mpr hone]
  | compact hfile => exact hfile.readHeads_eq hsize

theorem IndexStored.layout {hdr : MapHeader} {heads : List Head}
    (h : IndexStored vol inode hdr heads) :
    inode.layout = compressedFull ∨ inode.layout = compressedCompact := by
  cases h with
  | full hfile => exact .inl hfile.layout
  | compact hfile => exact .inr hfile.layout

theorem SpanAt.read {h : Head} {span : List UInt8} (hspan : SpanAt vol h span) :
    readSpan vol h.blkaddr h.cblkcnt = .ok span := by
  have hin := (slice_eq_some.mp hspan.stored).1
  have hlen := vol.src.length_lt
  have hphys : u64 (h.blkaddr * vol.blockSize) = .ok _ := fits_eq_ok.mpr ⟨by omega, rfl⟩
  have hwant : u64 (h.cblkcnt * vol.blockSize) = .ok _ := fits_eq_ok.mpr ⟨hspan.count_lt, rfl⟩
  have hne : ¬span.length = 0 := fun hzero => hspan.span_ne (List.length_eq_zero_iff.mp hzero)
  unfold readSpan
  rw [hphys, lift_ok_bind, hwant, lift_ok_bind]
  dsimp only
  rw [← hspan.length, if_neg hne, Source.readAt_eq_ok.mpr hspan.stored]

/-- The extent before some pclusters ends where they start. -/
theorem Packed.nextStart {hdr : MapHeader} {out rest : List UInt8} {heads : List Head}
    (h : Packed codecs vol hdr out heads rest) :
    Erofs.nextStart (out ++ rest).length heads = out.length := by
  cases h with
  | nil => rw [List.append_nil]; rfl
  | done hstart => exact hstart
  | cons hstart => exact hstart

theorem Packed.decode {hdr : MapHeader} {out rest : List UInt8} {heads : List Head}
    (h : Packed codecs vol hdr out heads rest) :
    decodeHeads codecs vol hdr (out ++ rest).length out heads = .ok (out ++ rest) := by
  induction h with
  | nil => rw [List.append_nil]; rfl
  | done hstart hrest ih =>
    rw [decodeHeads, hrest.nextStart, hstart, if_neg (Nat.lt_irrefl _), if_pos (Nat.sub_self _)]
    exact ih
  | @cons out seg rest span h heads hstart hne hspan hdecode hrest ih =>
    have hnext := hrest.nextStart
    rw [List.append_assoc] at hnext ih
    have hlen : (out ++ seg).length - out.length = seg.length := by
      rw [List.length_append, Nat.add_sub_cancel_left]
    have hpos : ¬seg.length = 0 := fun hzero => hne (List.length_eq_zero_iff.mp hzero)
    have hmono : ¬(out ++ seg).length < out.length := by
      rw [List.length_append]
      omega
    rw [decodeHeads, hnext, hstart, if_neg hmono, hlen, if_neg hpos, decodeOwn, hspan.read, ok_bind,
      hdecode, lift_ok_bind, ih]

theorem DataStored.layoutData (h : DataStored codecs vol inode data) (hinode : inode.Bounded)
    (hsize : inode.size = data.length) (hlt : data.length < 2 ^ 63) (hoff : off < data.length)
    (hle : off ≤ stop) (hstop : stop ≤ data.length) :
    Erofs.layoutData codecs vol inode off stop = .ok ((data.drop off).take (stop - off)) := by
  have hbase : u64 (inode.rawBlkaddr * vol.blockSize) = .ok (inode.rawBlkaddr * vol.blockSize) :=
    fits_eq_ok.mpr ⟨Nat.lt_trans (blocks_lt hinode.rawBlkaddr_lt) (by decide), rfl⟩
  have hflat : inode.layout = flatPlain ∨ inode.layout = flatInline ∨ inode.layout = chunkBased →
      Erofs.layoutData codecs vol inode off stop = readFlat vol inode off stop := by
    intro hlayout
    have hplain : ¬(inode.layout = compressedFull ∨ inode.layout = compressedCompact) := by
      rcases hlayout with h | h | h <;> rw [h] <;> decide
    exact if_neg hplain
  cases h with
  | empty => exact absurd hoff (Nat.not_lt_zero _)
  | plain hlayout hslice =>
    have hin := (slice_eq_some.mp hslice).1
    have hlen := vol.src.length_lt
    have hdisk : u64 (inode.rawBlkaddr * vol.blockSize + off) = .ok _ := fits_eq_ok.mpr ⟨by omega, rfl⟩
    rw [hflat (.inl hlayout), readFlat, if_pos hlayout, hbase, lift_ok_bind, hdisk, lift_ok_bind,
      Source.readAt_part hslice (by omega)]
  | @inline front tail hlayout hfront hslice htail =>
    have hother : ¬inode.layout = flatPlain := by
      rw [hlayout]
      decide
    rw [hflat (.inr (.inl hlayout)), readFlat, if_neg hother, if_pos hlayout]
    dsimp only
    rw [hbase, lift_ok_bind, ← hfront, readInline_stored hslice htail hstop]
  | chunked hlayout haccepted hmap hchunks =>
    have hother : ¬inode.layout = flatPlain := by
      rw [hlayout]
      decide
    have hother' : ¬inode.layout = flatInline := by
      rw [hlayout]
      decide
    have haligned : u64 (inode.inlineOff + 3) = .ok _ := fits_eq_ok.mpr ⟨hmap, rfl⟩
    rw [hflat (.inr (.inr hlayout)), readFlat, if_neg hother, if_neg hother', if_pos hlayout,
      readChunked_def, if_neg (not_not.mpr haccepted.known), if_neg (not_not.mpr haccepted.narrow),
      if_neg (Nat.not_lt.mpr haccepted.chunkbits_le), if_neg (not_not.mpr haccepted.addresses),
      haligned, ok_bind]
    exact readChunks_stored haccepted.chunkbits_le hlt hchunks hstop
  | packed hindex hcap hpacked =>
    have hdecode := hpacked.decode
    rw [List.nil_append] at hdecode
    have hwindow : slice data off (stop - off) = some ((data.drop off).take (stop - off)) :=
      slice_eq_some.mpr ⟨by omega, rfl⟩
    unfold Erofs.layoutData decodeInode
    rw [if_pos hindex.layout, hindex.readHeads (by omega), ok_bind]
    dsimp only
    rw [hsize, hdecode, ok_bind, hwindow]
    rfl

theorem DataStored.inodeData (h : DataStored codecs vol inode data) (hinode : inode.Bounded)
    (hsize : inode.size = data.length) (hlt : data.length < 2 ^ 63) {buf : List UInt8}
    (hbuf : buf.length < bufferBound) (off : ℕ) :
    Erofs.inodeData codecs vol inode off buf = .ok (windowOf data off buf) := by
  unfold Erofs.inodeData
  by_cases hpast : off ≥ inode.size
  · rw [if_pos hpast, windowOf_past (by omega)]
  · unfold bufferBound at hbuf
    have hasked : u64 (off + buf.length) = .ok _ := fits_eq_ok.mpr ⟨by omega, rfl⟩
    rw [if_neg hpast, hasked, ok_bind]
    dsimp only
    have hn : min (off + buf.length) inode.size - off = min buf.length (data.length - off) := by
      omega
    rw [h.layoutData hinode hsize hlt (by omega) (by omega) (by omega), ok_bind, windowOf_eq rfl, hn]
    rfl

section Reads

variable {verifier : Verifier} {node : NodeId} {blockStart : ℕ} {buf : List UInt8}

/-- The verifier accepts each block of the data at its place. -/
def Accepts (verifier : Verifier) (node : NodeId) (blockSize : ℕ) (data : List UInt8) : Prop :=
  ∀ start, blockSize ∣ start → start < data.length →
    verifier node start ((data.drop start).take blockSize) = .ok ()

theorem fillBlock_buf (buf : List UInt8) (blockLen : ℕ) :
    Preserves (fun w => w.buf = buf) (fillBlock codecs node blockStart blockLen) := by
  refine Preserves.get_bind fun w _ => ?_
  refine Preserves.bind ?_ fun filled => fun _ h => h
  intro w' h
  rw [onVolume, exec_zoom]
  exact h

theorem exec_block_stored (hstored : DataStored codecs vol inode data) (hinode : inode.Bounded)
    (hsize : inode.size = data.length) (hlt : data.length < 2 ^ 63)
    (haccepts : Accepts verifier node vol.blockSize data) (hdvd : vol.blockSize ∣ blockStart)
    (hin : blockStart < data.length) {w : Window} (hw : Filling codecs vol node inode w) :
    ∃ t, exec (fillBlock codecs node blockStart (min vol.blockSize (inode.size - blockStart)) >>=
        fun _ => verifyBlock verifier node blockStart
          (min vol.blockSize (inode.size - blockStart))) w = (.ok (), t) ∧
      Filling codecs vol node inode t ∧ t.buf = w.buf ∧
      t.block.take (min vol.blockSize (inode.size - blockStart)) =
        (data.drop blockStart).take vol.blockSize := by
  have hpos := vol.blockSize_pos
  have hend : blockStart + min vol.blockSize (inode.size - blockStart) ≤ data.length := by omega
  have hdata : blockData codecs vol inode blockStart =
      .ok ((data.drop blockStart).take vol.blockSize) := by
    unfold blockData
    rw [hstored.layoutData hinode hsize hlt hin (Nat.le_add_right _ _) hend,
      Nat.add_sub_cancel_left, hsize, ← List.length_drop, ← List.take_take, List.take_length]
  have hbefore : blockStart < inode.size := by omega
  obtain ⟨t, hfill, ht⟩ := exec_fillBlock_data hw hbefore (by omega)
  obtain ⟨hfilling, hblock⟩ := ht _ hdata
  rw [hdata] at hfill
  have hbuf : t.buf = w.buf := (fillBlock_buf w.buf _).of_exec rfl hfill
  rw [exec_bind_of_ok hfill, exec_verifyBlock, hblock, haccepts blockStart hdvd hin]
  exact ⟨_, rfl, ⟨hfilling.holds, hfilling.block_length⟩, hbuf, hblock⟩

/-- The block loop copies what is left of the window. -/
theorem exec_readBlocks_stored (hstored : DataStored codecs vol inode data)
    (hinode : inode.Bounded) (hsize : inode.size = data.length) (hlt : data.length < 2 ^ 63)
    (haccepts : Accepts verifier node vol.blockSize data) (hoff : off ≤ stop)
    (hstop : stop ≤ data.length) (hasked : stop ≤ off + buf.length) {produced : ℕ} {w : Window}
    (hw : Filling codecs vol node inode w) (hdvd : vol.blockSize ∣ blockStart)
    (hfirst : off < blockStart + vol.blockSize)
    (hproduced : produced = min stop (max off blockStart) - off)
    (hbuf : w.buf = overwrite buf 0 ((data.drop off).take produced)) :
    ∃ t, exec (readBlocks codecs verifier node vol off stop inode.size blockStart produced) w =
        (.ok (stop - off), t) ∧ t.buf = overwrite buf 0 ((data.drop off).take (stop - off)) := by
  have hpos := vol.blockSize_pos
  have hbs := blockSize_le vol
  fun_induction readBlocks (n := Id) codecs verifier node vol off stop inode.size blockStart produced
    generalizing w with
  | case1 blockStart produced hmore blockLen =>
    rename_i ih
    obtain ⟨t, hblock, ht, htbuf, hbytes⟩ :=
      exec_block_stored hstored hinode hsize hlt haccepts hdvd (by omega) hw
    have hlen : blockLen = min vol.blockSize (inode.size - blockStart) := rfl
    rw [← hlen] at hblock hbytes
    obtain ⟨copyStart, hcopyStart⟩ : ∃ copyStart, copyStart = max off blockStart := ⟨_, rfl⟩
    obtain ⟨copyEnd, hcopyEnd⟩ : ∃ copyEnd, copyEnd = min stop (blockStart + blockLen) := ⟨_, rfl⟩
    have hcopied : (t.block.drop (copyStart - blockStart)).take (copyEnd - copyStart) =
        (data.drop copyStart).take (copyEnd - copyStart) := by
      have hpart := congrArg (fun bytes =>
        (bytes.drop (copyStart - blockStart)).take (copyEnd - copyStart)) hbytes
      rwa [List.drop_take, List.drop_take, List.take_take, List.take_take, List.drop_drop,
        Nat.min_eq_left (by omega), Nat.min_eq_left (by omega),
        Nat.add_sub_cancel' (by omega)] at hpart
    obtain ⟨u, hsurface, hubuf, hu⟩ : ∃ u, exec (surface off stop blockStart blockLen) t =
        (.ok (copyEnd - copyStart), u) ∧
        u.buf = overwrite t.buf (copyStart - off)
          ((data.drop copyStart).take (copyEnd - copyStart)) ∧
        Filling codecs vol node inode u := by
      unfold surface
      dsimp only
      rw [← hcopyStart, ← hcopyEnd]
      by_cases hcopy : copyEnd > copyStart
      · rw [if_pos hcopy, exec_bind_of_ok (exec_get t), hcopied]
        exact ⟨_, rfl, rfl, ht.holds, ht.block_length⟩
      · rw [if_neg hcopy, Nat.sub_eq_zero_of_le (Nat.le_of_not_lt hcopy), List.take_zero,
          overwrite_nil]
        exact ⟨t, rfl, rfl, ht⟩
    have hdone : ((data.drop off).take produced).length = copyStart - off := by
      rw [List.length_take, List.length_drop]
      omega
    have hwindow : (data.drop off).take (copyStart - off) ++
        (data.drop copyStart).take (copyEnd - copyStart) = (data.drop off).take (copyEnd - off) :=
      window_append (by omega) (by omega)
    have hfits : u64 (blockStart + vol.blockSize) = .ok _ := fits_eq_ok.mpr ⟨by omega, rfl⟩
    rw [← bind_assoc, exec_bind_of_ok hblock, exec_bind_of_ok hsurface,
      exec_bind_of_ok ((exec_lift _ _).trans (congrArg (·, _) hfits))]
    refine ih (copyEnd - copyStart) hu (Nat.dvd_add hdvd (Nat.dvd_refl _))
      (by omega) (by omega) ?_
    have hnext : produced + (copyEnd - copyStart) = copyEnd - off := by omega
    have hsofar : produced = copyStart - off := by omega
    have hroom : 0 + ((data.drop off).take produced).length ≤ buf.length := by omega
    have hstart : copyStart - off = 0 + ((data.drop off).take produced).length := by omega
    rw [hubuf, htbuf, hbuf, hstart, overwrite_append hroom, hnext, hsofar, hwindow]
  | case2 blockStart produced hdone =>
    have hall : produced = stop - off := by omega
    subst hall
    exact ⟨w, rfl, hbuf⟩

/-- In every state of the volume a file that is stored is read in windows. -/
theorem readAt_stored {fs : Erofs} (hfs : Holds codecs vol fs)
    (hread : readInode vol node = .ok inode) (hkind : inode.kind ≠ .directory)
    (hstored : DataStored codecs vol inode data) (hsize : inode.size = data.length)
    (hlt : data.length < 2 ^ 63) (haccepts : Accepts verifier node vol.blockSize data)
    (hbuf : buf.length < bufferBound) :
    (exec (readAt codecs verifier node off buf) fs).1 = .ok (windowOf data off buf) := by
  have hready : Ready codecs vol (.start fs buf) := ⟨hfs, by simp [Window.start, hfs.vol_eq]⟩
  rw [exec_readAt]
  unfold readWindow DataPath.readWindow dataPath
  obtain ⟨u, hrun, hu, hubuf, -⟩ := exec_parsedWindow hready hread _
  have hstart : u.buf = buf := hubuf
  rw [hrun, if_neg hkind]
  by_cases hpast : off ≥ inode.size
  · rw [if_pos hpast, windowOf_past (by omega), ← hstart]
    rfl
  · have hpos := vol.blockSize_pos
    have hfloor := Nat.div_mul_le_self off vol.blockSize
    have hnext := Nat.lt_div_mul_add hpos (a := off)
    unfold bufferBound at hbuf
    have hasked : u64 (off + u.buf.length) = .ok _ := fits_eq_ok.mpr ⟨by rw [hstart]; omega, rfl⟩
    rw [if_neg hpast, exec_bind_of_ok (exec_get u),
      exec_bind_of_ok ((exec_lift _ _).trans (congrArg (·, _) hasked)), hstart, hu.holds.vol_eq]
    dsimp only
    have hstop : min (off + buf.length) inode.size ≤ data.length := by omega
    have hnone : 0 = min (min (off + buf.length) inode.size)
        (max off (off / vol.blockSize * vol.blockSize)) - off := by omega
    have hbuf₀ : u.buf = overwrite buf 0 ((data.drop off).take 0) := by
      rw [List.take_zero, overwrite_nil, hstart]
    obtain ⟨t, hblocks, htbuf⟩ := exec_readBlocks_stored hstored (readInode_bounded hread) hsize
      hlt haccepts (by omega) hstop (by omega) hu (Nat.dvd_mul_left ..) hnext hnone hbuf₀
    have hn : min (off + buf.length) inode.size - off = min buf.length (data.length - off) := by
      omega
    rw [hblocks, windowOf_eq rfl, ← hn]
    exact congrArg (fun bytes => Except.ok (_, bytes)) htbuf

end Reads

end Lamfold.Erofs
