import Lamfold.ErofsTrusted

/-!
Windows of uncompressed files. The layout of an inode says where on the device each
byte of the file is. A read under a verifier that accepts returns the bytes of its
window, or fails with an error of the source or of the format.
-/
namespace Lamfold.Erofs

open Effects Bytes

section Content

variable (vol : Volume) (inode : Inode)

/-- Whole blocks at the block address, the rest of the size right after the inode. -/
def inlineByte (i : ℕ) : Option UInt8 :=
  let full := inode.size / vol.blockSize * vol.blockSize
  if i < full then vol.src.content[inode.rawBlkaddr * vol.blockSize + i]?
  else vol.src.content[inode.inlineOff + (i - full)]?

/-- The block map: after the inode, 4-byte aligned. -/
def blockMap : ℕ := (inode.inlineOff + 3) / 4 * 4

/-- The block address of chunk `k`. -/
def chunkAddress (k : ℕ) : Option ℕ :=
  (slice vol.src.content (blockMap inode + k * 4) 4).map leNat

/-- Chunk `i` at its block address, and zeros at the null address. -/
def chunkByte (i : ℕ) : Option UInt8 := do
  let blkaddr ← chunkAddress vol inode (i / 2 ^ inode.chunkbits vol)
  if blkaddr = nullBlkaddr then some 0
  else vol.src.content[blkaddr * vol.blockSize + i % 2 ^ inode.chunkbits vol]?

/-- Byte `i` of an uncompressed file, where its layout puts it. -/
def contentAt (i : ℕ) : Option UInt8 :=
  if inode.layout = flatPlain then vol.src.content[inode.rawBlkaddr * vol.blockSize + i]?
  else if inode.layout = flatInline then inlineByte vol inode i
  else if inode.layout = chunkBased then chunkByte vol inode i
  else none

end Content

variable {vol : Volume} {inode : Inode}

theorem readAt_byte {src : Source} {disk n i : ℕ} {out : List UInt8}
    (h : src.readAt disk n = .ok out) (hi : i < n) : out[i]? = src.content[disk + i]? :=
  slice_getElem? (Source.readAt_eq_ok.mp h) hi

theorem readInline_byte {stop p i : ℕ} {out : List UInt8}
    (h : readInline vol inode (inode.size / vol.blockSize * vol.blockSize)
      (inode.rawBlkaddr * vol.blockSize) stop p = .ok out) (hi : p + i < stop) :
    out[i]? = inlineByte vol inode (p + i) := by
  generalize hfull : inode.size / vol.blockSize * vol.blockSize = full at h
  generalize hbase : inode.rawBlkaddr * vol.blockSize = base at h
  fun_induction readInline vol inode full base stop p generalizing out i with
  | case1 p hlt hp segEnd =>
    rename_i ih
    obtain ⟨disk, hdisk, h⟩ := bind_eq_ok.mp h
    obtain ⟨-, rfl⟩ := fits_eq_ok.mp hdisk
    obtain ⟨seg, hseg, h⟩ := bind_eq_ok.mp h
    obtain ⟨rest, hrest, h⟩ := bind_eq_ok.mp h
    cases h
    refine append_getElem? (f := fun i => inlineByte vol inode (p + i)) (Source.readAt_length hseg) ?_ ?_
    · intro hi'
      rw [readAt_byte hseg hi']
      unfold inlineByte
      rw [hfull, hbase, if_pos (by omega), Nat.add_assoc]
    · rintro j rfl
      rw [ih (by omega) hrest]
      congr 1
      omega
  | case2 p hlt hp =>
    obtain ⟨disk, hdisk, h⟩ := bind_eq_ok.mp h
    obtain ⟨-, rfl⟩ := fits_eq_ok.mp hdisk
    rw [readAt_byte h (by omega)]
    unfold inlineByte
    rw [hfull, if_neg (by omega)]
    congr 1
    omega
  | case3 p hlt => omega

theorem readChunk_byte {k within n i : ℕ} {out : List UInt8}
    (h : readChunk vol (blockMap inode) k within n = .ok out) (hi : i < n) :
    ∃ blkaddr, chunkAddress vol inode k = some blkaddr ∧
      out[i]? = if blkaddr = nullBlkaddr then some 0
        else vol.src.content[blkaddr * vol.blockSize + (within + i)]? := by
  obtain ⟨entry, hentry, h⟩ := bind_eq_ok.mp h
  obtain ⟨-, rfl⟩ := fits_eq_ok.mp hentry
  obtain ⟨e, he, h⟩ := bind_eq_ok.mp h
  have haddress : chunkAddress vol inode k = some (leNat e) := by
    rw [chunkAddress, Source.readAt_eq_ok.mp he]
    rfl
  refine ⟨leNat e, haddress, ?_⟩
  dsimp only at h
  split_ifs at h ⊢ with hnull
  · cases h
    rw [List.getElem?_replicate, if_pos hi]
  · obtain ⟨disk, hdisk, h⟩ := bind_eq_ok.mp h
    obtain ⟨-, rfl⟩ := fits_eq_ok.mp hdisk
    rw [readAt_byte h hi, Nat.add_assoc]

theorem readChunks_byte {stop p i : ℕ} {out : List UInt8}
    (h : readChunks vol (inode.chunkbits vol) (blockMap inode) stop p = .ok out)
    (hi : p + i < stop) : out[i]? = chunkByte vol inode (p + i) := by
  generalize hbits : inode.chunkbits vol = chunkbits at h
  generalize htable : blockMap inode = table at h
  fun_induction readChunks vol chunkbits table stop p generalizing out i with
  | case1 p hlt idx =>
    rename_i ih
    obtain ⟨-, -, h⟩ := bind_eq_ok.mp h
    obtain ⟨seg, hseg, h⟩ := bind_eq_ok.mp h
    obtain ⟨rest, hrest, h⟩ := bind_eq_ok.mp h
    cases h
    have hpos := Nat.two_pow_pos chunkbits
    have hnext : p < (p / 2 ^ chunkbits + 1) * 2 ^ chunkbits := by
      rw [Nat.mul_comm]
      exact Nat.lt_mul_div_succ p hpos
    refine append_getElem? (f := fun i => chunkByte vol inode (p + i)) (readChunk_length hseg) ?_ ?_
    · intro hi'
      obtain ⟨hdiv, hmod⟩ : (p + i) / 2 ^ chunkbits = idx ∧ (p + i) % 2 ^ chunkbits = _ :=
        same_piece (by omega)
      subst htable
      obtain ⟨blkaddr, haddress, hbyte⟩ := readChunk_byte hseg hi'
      rw [hbyte]
      unfold chunkByte
      rw [hbits, hdiv, hmod, haddress]
      rfl
    · rintro j rfl
      rw [ih (by omega) hrest]
      congr 1
      omega
  | case2 p hlt => omega

/-- A read of a file's data returns the bytes its layout puts there. -/
theorem readFlat_byte {off stop i : ℕ} {out : List UInt8}
    (h : readFlat vol inode off stop = .ok out) (hi : off + i < stop) :
    out[i]? = contentAt vol inode (off + i) := by
  unfold readFlat at h
  unfold contentAt
  split_ifs at h ⊢
  · obtain ⟨base, hbase, h⟩ := bind_eq_ok.mp h
    obtain ⟨-, rfl⟩ := fits_eq_ok.mp hbase
    obtain ⟨disk, hdisk, h⟩ := bind_eq_ok.mp h
    obtain ⟨-, rfl⟩ := fits_eq_ok.mp hdisk
    rw [readAt_byte h (by omega), Nat.add_assoc]
  · obtain ⟨base, hbase, h⟩ := bind_eq_ok.mp h
    obtain ⟨-, rfl⟩ := fits_eq_ok.mp hbase
    exact readInline_byte h hi
  · rw [readChunked_def] at h
    split_ifs at h
    · exact absurd h (fail_ne_ok _ _)
    · exact absurd h (fail_ne_ok _ _)
    · exact absurd h (fail_ne_ok _ _)
    · exact absurd h (fail_ne_ok _ _)
    · obtain ⟨aligned, haligned, h⟩ := bind_eq_ok.mp h
      obtain ⟨-, rfl⟩ := fits_eq_ok.mp haligned
      exact readChunks_byte h hi
  · exact absurd h (fail_ne_ok _ _)

theorem readInline_errors {fullBytes base stop p : ℕ} :
    RaisesOnly FoldError.SourceOrFormat (readInline vol inode fullBytes base stop p) := by
  fun_induction readInline vol inode fullBytes base stop p with
  | case1 p hlt hp segEnd =>
    rename_i ih
    refine RaisesOnly.bind .fits fun disk _ => ?_
    exact sourceErrors_readAt.bind fun seg _ => ih.bind fun rest _ => .ok _
  | case2 p hlt hp => exact RaisesOnly.bind .fits fun disk _ => sourceErrors_readAt
  | case3 p hlt => exact .ok []

theorem readChunk_errors {table idx within n : ℕ} :
    RaisesOnly FoldError.SourceOrFormat (readChunk vol table idx within n) := by
  refine RaisesOnly.bind .fits fun entry _ => ?_
  refine sourceErrors_readAt.bind fun e _ => ?_
  refine RaisesOnly.ite (fun _ => .ok _) fun _ => ?_
  exact RaisesOnly.bind .fits fun disk _ => sourceErrors_readAt

theorem readChunks_errors {chunkbits table stop p : ℕ} :
    RaisesOnly FoldError.SourceOrFormat (readChunks vol chunkbits table stop p) := by
  fun_induction readChunks vol chunkbits table stop p with
  | case1 p hlt idx =>
    rename_i ih
    refine RaisesOnly.bind .fits fun _ _ => ?_
    exact readChunk_errors.bind fun seg _ => ih.bind fun rest _ => .ok _
  | case2 p hlt => exact .ok []

theorem readFlat_errors {off stop : ℕ} :
    RaisesOnly FoldError.SourceOrFormat (readFlat vol inode off stop) := by
  refine RaisesOnly.ite (fun _ => ?_) fun _ => RaisesOnly.ite (fun _ => ?_) fun _ =>
    RaisesOnly.ite (fun _ => ?_) fun _ => .fail (.unsupported _)
  · refine RaisesOnly.bind .fits fun base _ => ?_
    exact RaisesOnly.bind .fits fun disk _ => sourceErrors_readAt
  · exact RaisesOnly.bind .fits fun base _ => readInline_errors
  · rw [readChunked_def]
    refine RaisesOnly.ite (fun _ => .fail (.corrupt _)) fun _ => ?_
    refine RaisesOnly.ite (fun _ => .fail (.unsupported _)) fun _ => ?_
    refine RaisesOnly.ite (fun _ => .fail (.corrupt _)) fun _ => ?_
    refine RaisesOnly.ite (fun _ => .fail (.unsupported _)) fun _ => ?_
    exact RaisesOnly.bind .fits fun aligned _ => readChunks_errors

section Window

variable {ρ : Type} {codecs : Codecs ρ} {verifier : Verifier} {node : NodeId}
  {off stop blockStart : ℕ}

theorem blockData_errors
    (hplain : ¬(inode.layout = compressedFull ∨ inode.layout = compressedCompact)) :
    RaisesOnly FoldError.SourceOrFormat (blockData codecs vol inode blockStart) := by
  unfold blockData layoutData
  rw [if_neg hplain]
  exact readFlat_errors

end Window

theorem blockData_byte {ρ : Type} {codecs : Codecs ρ} {start i : ℕ} {data : List UInt8}
    (hplain : ¬(inode.layout = compressedFull ∨ inode.layout = compressedCompact))
    (h : blockData codecs vol inode start = .ok data)
    (hi : i < min vol.blockSize (inode.size - start)) :
    data[i]? = contentAt vol inode (start + i) := by
  unfold blockData layoutData at h
  rw [if_neg hplain] at h
  exact readFlat_byte h (by omega)

/-- In any state that a mounted volume can reach, a read of an uncompressed file under
a verifier that accepts either fails with an error of the source or of the format, or
returns the bytes of its window. -/
theorem readAt_contentSlice {ρ : Type} (codecs : Codecs ρ) {src : Source} {fs t : Erofs}
    {verifier : Verifier} {node : NodeId} {inode : Inode} {off : ℕ} {buf : List UInt8}
    (hmount : mount src = .ok fs) (hrun : Reaches (frontend codecs) fs t)
    (hread : readInode t.vol node = .ok inode) (hkind : inode.kind ≠ .directory)
    (hlayout : inode.layout = flatPlain ∨ inode.layout = flatInline ∨ inode.layout = chunkBased)
    (haccepts : ∀ node start data, verifier node start data = .ok ())
    (hfits : CallFits codecs verifier t.vol (.readAt node off buf)) :
    (∃ e, (exec (readAt codecs verifier node off buf) t).1 = .error (.err e) ∧
        e.SourceOrFormat) ∨
      ∃ out, (exec (readAt codecs verifier node off buf) t).1 =
          .ok (min (off + buf.length) inode.size - off, out) ∧
        out.length = buf.length ∧
        ∀ i, off + i < min (off + buf.length) inode.size →
          out[i]? = contentAt t.vol inode (off + i) := by
  have ht : Holds codecs t.vol t := by
    have hholds := hrun.keeps (cacheKept_holds codecs fs.vol).frontend (mount_holds hmount)
    rwa [hholds.vol_eq]
  have hplain : ¬(inode.layout = compressedFull ∨ inode.layout = compressedCompact) := by
    rcases hlayout with h | h | h <;> rw [h] <;> decide
  obtain ⟨hholds, hgenuine, herrors⟩ : HoldsInode codecs t.vol node inode
      (exec (readWindow codecs verifier node off) (.start t buf)).2.fs ∧ _ :=
    readWindow_genuine ht hread hkind (fun _ => blockData_errors hplain)
      fun start data => by rw [haccepts]; exact .ok ()
  have hreport := readWindow_report codecs verifier node off buf t
  have hanswers : ∀ node start data, Answered (verifier node start data) :=
    fun node start data => answered_of_eq_ok (haccepts node start data)
  have hanswered := (answered_readAt_iff ht hanswers).mpr hfits
  rw [exec_readAt] at hanswered ⊢
  rcases hexec : exec (readWindow codecs verifier node off) (.start t buf) with ⟨e | n, w⟩
  · rw [hexec] at hanswered herrors
    obtain ⟨reported, rfl⟩ := answered_error.mp hanswered
    exact .inl ⟨reported, rfl, herrors _ rfl⟩
  · rw [hexec] at hholds hgenuine hreport
    have hcomplete := hreport.complete n rfl
    have hsize : w.fs.fileSize node = inode.size := by
      rw [fileSize, hholds.cached]
      rfl
    have hcount := hcomplete.count
    rw [hsize] at hcount
    subst hcount
    refine .inr ⟨w.buf, rfl, hcomplete.buf_length, ?_⟩
    intro i hi
    have hpos := t.vol.blockSize_pos
    obtain ⟨start, hstart⟩ : ∃ start, start = (off + i) / t.vol.blockSize * t.vol.blockSize := ⟨_, rfl⟩
    have hle := Nat.div_mul_le_self (off + i) t.vol.blockSize
    have hlt := Nat.lt_div_mul_add hpos (a := off + i)
    obtain ⟨data, haccepted, hbytes⟩ := hcomplete.served start (hstart ▸ Nat.dvd_mul_left ..) (by omega)
    rw [hbytes i (by omega) (by omega),
      blockData_byte hplain (hgenuine _ _ _ haccepted) (by omega)]
    congr 1
    omega

/-- A file of 1025 bytes in chunks of 512: block 3, a hole, and block 3 again. -/
def sparseFile : Source where
  content := List.replicate 1024 0 ++ tinySuperblock ++
    [8, 0, 0, 0, 0, 0x80, 0, 0, 1, 4, 0, 0] ++ List.replicate 20 0 ++
    [3, 0, 0, 0, 255, 255, 255, 255, 3, 0, 0, 0] ++ List.replicate 340 0 ++ [7]
  length_lt := by decide +kernel

def sparseInode : Inode := ⟨.regular, 1025, 0x8000, 4, 0, 1184⟩

def sparseMount : Erofs :=
  ⟨tinyVolume sparseFile, (∅ : Std.TreeMap NodeId Inode).insert 4 sparseInode, ∅⟩

theorem readInode_sparseFile : readInode (tinyVolume sparseFile) 4 = .ok sparseInode := by
  decide +kernel

theorem mount_sparseFile : mount sparseFile = .ok sparseMount :=
  @mount_eq_ok _ (tinyVolume sparseFile) _ (by decide +kernel) readInode_sparseFile

theorem readAt_sparseFile :
    (exec (readAt noStreams noVerifier 4 1023 [9, 9]) sparseMount).1 = .ok (2, [0, 7]) := by
  decide +kernel

/-- The last byte of a hole, and the first one behind it. -/
theorem readAt_contentSlice_sparseFile :
    ∃ out, (exec (readAt noStreams noVerifier 4 1023 [9, 9]) sparseMount).1 = .ok (2, out) ∧
      out.length = 2 ∧ out[0]? = some 0 ∧ out[1]? = some 7 := by
  have hfs : Holds noStreams (tinyVolume sparseFile) sparseMount := mount_holds mount_sparseFile
  have hverifier : ∀ node start block, Answered (noVerifier node start block) :=
    fun _ _ _ => trivial
  have hfits : CallFits noStreams noVerifier (tinyVolume sparseFile) (.readAt 4 1023 [9, 9]) :=
    (answered_readAt_iff hfs hverifier).mp (answered_of_eq_ok readAt_sparseFile)
  have hend : min (1023 + ([9, 9] : List UInt8).length) sparseInode.size = 1025 := by decide
  have hread := readAt_contentSlice noStreams (t := sparseMount) mount_sparseFile .refl
    readInode_sparseFile (by decide) (.inr (.inr rfl)) (fun _ _ _ => rfl) hfits
  rw [hend] at hread
  rcases hread with ⟨e, herror, -⟩ | ⟨out, hout, hlen, hbytes⟩
  · exact absurd (readAt_sparseFile.symm.trans herror) (by simp)
  · have hhole : contentAt (tinyVolume sparseFile) sparseInode 1023 = some 0 := by decide +kernel
    have hbehind : contentAt (tinyVolume sparseFile) sparseInode 1024 = some 7 := by decide +kernel
    exact ⟨out, hout, hlen, (hbytes 0 (by decide)).trans hhole, (hbytes 1 (by decide)).trans hbehind⟩

end Lamfold.Erofs
