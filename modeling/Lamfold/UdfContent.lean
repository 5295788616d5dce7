import Lamfold.WholeReads

/-!
What a UDF file holds, and that both readers give it. The content is that of the
extents one after another, zeros where they are not recorded, up to the size; `read_all`
gives all of it and `read_at` a window.
-/
namespace Lamfold.Udf

open Effects Bytes

/-- Byte `i` of an extent, when the source has it. -/
def extentByte (vol : Volume) (e : Extent) (i : ℕ) : Option UInt8 :=
  match e.lba with
  | some lba => vol.src.content[lba * vol.blockSize + i]?
  | none => some 0

/-- The bytes of a file, each `none` where the source ends before it. -/
def content (vol : Volume) (inode : UdfInode) : List (Option UInt8) :=
  match inode.data with
  | .inline bytes => bytes.map some
  | .extents ex => (extentBytes Extent.len (extentByte vol) ex).take inode.size

variable {vol : Volume}

theorem content_inline {inode : UdfInode} {bytes : List UInt8} (h : inode.data = .inline bytes) :
    content vol inode = bytes.map some := by
  simp only [content, h]

theorem content_extents {inode : UdfInode} {ex : List Extent} (h : inode.data = .extents ex) :
    content vol inode = (extentBytes Extent.len (extentByte vol) ex).take inode.size := by
  simp only [content, h]

theorem readExtent_content {e : Extent} {intra n : ℕ} {bytes : List UInt8}
    (h : readExtent vol e intra n = .ok bytes) :
    bytes.map some = bytesOf (extentByte vol e) intra n := by
  unfold readExtent at h
  split at h
  · rename_i lba hlba
    obtain ⟨disk, hdisk, h⟩ := bind_eq_ok.mp h
    obtain ⟨-, rfl⟩ := fits_eq_ok.mp hdisk
    refine bytesOf_of_slice ?_ (Source.readAt_eq_ok.mp h)
    intro k _
    simp only [extentByte, hlba, Nat.add_assoc]
  · rename_i hlba
    obtain rfl := Except.ok.inj h
    have hbyte : extentByte vol e = fun _ => some 0 := by
      funext i
      simp only [extentByte, hlba]
    simp [bytesOf, hbyte]

theorem readAllExtents_content {total : ℕ} {es : List Extent} {out data : List UInt8}
    (h : readAllExtents vol total es out = .ok data) :
    data.map some = out.map some ++
      (extentBytes Extent.len (extentByte vol) es).take (total - out.length) := by
  induction es generalizing out with
  | nil =>
    obtain rfl := Except.ok.inj h
    simp [extentBytes]
  | cons e es ih =>
    rw [readAllExtents] at h
    split at h
    · rename_i hfull
      obtain rfl := Except.ok.inj h
      rw [Nat.sub_eq_zero_of_le hfull, List.take_zero, List.append_nil]
    · obtain ⟨chunk, hchunk, h⟩ := bind_eq_ok.mp h
      have hpiece := readExtent_content hchunk
      have hlen : chunk.length = min e.len (total - out.length) := by
        rw [← List.length_map some, hpiece, bytesOf_length]
      have hwindow := @extentBytes_window _ Extent.len (extentByte vol) e es 0
        (total - out.length) (Nat.zero_le _)
      rw [List.drop_zero, Nat.sub_zero] at hwindow
      rw [ih h, List.map_append, hpiece, List.append_assoc, hwindow, List.length_append, hlen]
      congr 3
      omega

/-- `read_all` gives the content. -/
theorem readAll_content {inode : UdfInode} {out : List UInt8} (h : readAll vol inode = .ok out) :
    out.map some = content vol inode := by
  unfold readAll at h
  split at h
  · rename_i bytes hdata
    obtain rfl := Except.ok.inj h
    rw [content_inline hdata]
  · rename_i ex hdata
    obtain ⟨total, htotal, h⟩ := bind_eq_ok.mp h
    obtain ⟨-, rfl⟩ := checkedFullReadLen_eq_ok.mp htotal
    obtain ⟨data, hread, h⟩ := bind_eq_ok.mp h
    obtain rfl := Except.ok.inj h
    rw [content_extents hdata, List.map_take, readAllExtents_content hread]
    simp

/-- What is read at an offset inside the size is a window of the content. -/
theorem readData_content {inode : UdfInode} (hinode : inode.Bounded) {off n : ℕ}
    {data : List UInt8} (h : readData vol inode.data off (min n (inode.size - off)) = .ok data) :
    data.map some = ((content vol inode).drop off).take n := by
  have hbounded := hinode.data
  unfold readData at h
  split at h
  · rename_i bytes hdata
    rw [hdata] at hbounded
    have hlen : bytes.length = inode.size := hbounded
    obtain ⟨-, rfl⟩ := slice_eq_some.mp (unwrap_eq_ok.mp h)
    rw [content_inline hdata, ← List.map_drop, ← List.map_take, hlen, Nat.min_assoc, Nat.min_self,
      ← hlen, ← List.length_drop, ← List.take_take, List.take_length]
  · rename_i ex hdata
    have hread : ∀ e intra n bytes, readExtent vol e intra n = .ok bytes →
        bytes.map some = bytesOf (extentByte vol e) intra n := fun _ _ _ _ => readExtent_content
    rw [content_extents hdata, readExtents_content hread (.inl (Nat.zero_le _)) h, List.drop_take,
      List.take_take]
    simp

theorem content_length_le {inode : UdfInode} (hinode : inode.Bounded) :
    (content vol inode).length ≤ inode.size := by
  have hbounded := hinode.data
  unfold content
  split
  · rename_i bytes hdata
    rw [hdata] at hbounded
    have hlen : bytes.length = inode.size := hbounded
    rw [List.length_map, hlen]
  · exact List.length_take_le ..

/-- In any state that a mounted volume can reach, and for any node: `read_all` gives the
content of the file, and every read after any further calls a window of it; so a window
has the same bytes whichever reader gives them. -/
theorem readers_agree {src : Source} {s t u : Udf} (hmount : mount src = .ok s)
    (hrun : Reaches (fun _ : Unit => frontend) s t) {node : NodeId} {inode : UdfInode}
    (hnode : t.table.inode node = .ok inode) (hmore : Reaches (fun _ : Unit => frontend) t u) :
    (∀ out, readAll t.vol inode = .ok out → out.map some = content t.vol inode) ∧
      ∀ off buf n window, (exec (frontend.readAt node off buf) u).1 = .ok (n, window) →
        Writes (content t.vol inode) off buf n window ∧
          ∀ out, readAll t.vol inode = .ok out → window.take n = (out.drop off).take buf.length := by
  refine ⟨fun out => readAll_content, ?_⟩
  intro off buf n window h
  suffices hwrites : Writes (content t.vol inode) off buf n window by
    refine ⟨hwrites, ?_⟩
    intro out hout
    have hbytes := hwrites.bytes
    rw [← readAll_content hout, ← List.map_drop, ← List.map_take] at hbytes
    exact List.map_injective_iff.mpr (Option.some_injective UInt8) hbytes
  have ht := hrun.keeps (fun _ => frontend_keeps_opened s.vol) (mount_opened hmount)
  have hu := hmore.keeps (fun _ => keeps_inode s.vol node inode) ⟨ht, hnode⟩
  have hinode := ht.nodes.inode hnode
  rw [ht.vol_eq]
  by_cases hkind : inode.kind = .directory
  · have hfound : exec (Udf.inode node) u = (.ok inode, u) := Prod.ext hu.2 rfl
    change (exec (readAt node off buf) u).1 = _ at h
    rw [readAt, exec_bind_of_ok hfound, if_pos hkind] at h
    cases h
  · rw [exec_readAt hkind hu] at h
    dsimp only at h
    split at h
    · rename_i hpast
      obtain ⟨rfl, rfl⟩ := Prod.mk.inj (Except.ok.inj h)
      exact .past (Nat.le_trans (content_length_le hinode) hpast) buf
    · obtain ⟨data, hdata, h⟩ := bind_eq_ok.mp h
      obtain ⟨rfl, rfl⟩ := Prod.mk.inj (Except.ok.inj h)
      exact .of_data (readData_content hinode hdata)

/-- The File Entry of a file of eight bytes: two recorded extents, each with an
unrecorded one behind it. -/
def sparseEntry : List UInt8 :=
  [5, 1] ++ List.replicate 25 0 ++ [5] ++ List.replicate 28 0 ++ [8] ++ List.replicate 115 0 ++
    [32, 0, 0, 0] ++ [2, 0, 0, 0, 4, 0, 0, 0] ++ [3, 0, 0, 0x40, 0, 0, 0, 0] ++
    [1, 0, 0, 0, 4, 0, 0, 0] ++ [9, 0, 0, 0x40, 0, 0, 0, 0]

/-- A volume with that file in the place of its root. -/
def sparseFile : List (List UInt8) :=
  descriptors [1, 1, 0, 0] [2, 0, 0, 0] ++ [fileSet [3, 0, 0, 0], sparseEntry, [7, 9]]

theorem sparseFile_heads : ∀ bytes ∈ sparseFile, bytes.length ≤ sector := by decide +kernel

theorem sparseFile_count : sparseFile.length < 2 ^ 16 := by decide

def sparseSource : Source := farSource sparseFile sparseFile_heads sparseFile_count

def sparseInode : UdfInode :=
  ⟨.regular, 8, .extents [⟨some 261, 2⟩, ⟨none, 3⟩, ⟨some 261, 1⟩, ⟨none, 9⟩]⟩

def sparseMount : Udf := ⟨⟨sparseSource, 2048, 257⟩, (InternTable.empty.intern 260 sparseInode).2⟩

theorem mount_sparseSource : mount sparseSource = .ok sparseMount :=
  mount_rootEntry (by decide +kernel)

theorem readers_agree_sparseFile :
    (∀ out, readAll sparseMount.vol sparseInode = .ok out →
        out.map some = content sparseMount.vol sparseInode) ∧
      ∀ off buf n window, (exec (frontend.readAt 0 off buf) sparseMount).1 = .ok (n, window) →
        Writes (content sparseMount.vol sparseInode) off buf n window ∧
          ∀ out, readAll sparseMount.vol sparseInode = .ok out →
            window.take n = (out.drop off).take buf.length :=
  readers_agree mount_sparseSource .refl rfl .refl

end Lamfold.Udf
