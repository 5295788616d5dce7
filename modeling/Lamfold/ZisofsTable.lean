import Lamfold.ZisofsBlocks

/-!
What the table of a zisofs file says, and that reads follow it. A block lies between
two pointers; equal pointers are a hole. The reader takes pointers that run backward
for a hole as well, so it follows the table exactly when no block it looks at has such.
-/
namespace Lamfold.Iso9660

open Effects Bytes RockRidge

/-- The pointers of a compressed file: the head that holds them, where its extent
starts, and how long its blocks and the file are. -/
structure BlockTable where
  head : List UInt8
  extentOff : ℕ
  blockSize : ℕ
  size : ℕ

section Table

variable {ρ : Type} (codecs : Codecs ρ) (vol : Volume) (inode : Inode) (zi : Zisofs)
  (table : BlockTable)

/-- The table that reads of a file find. -/
def TableOf : Prop :=
  ∃ head, ZisofsHead vol inode zi head ∧
    table = ⟨head, inode.lba * vol.blockSize, 1 <<< zi.blockSizeLog2, zi.uncompressedSize⟩

/-- What block `blk` is by its two pointers. -/
inductive TableBlock (blk : ℕ) : List UInt8 → Prop
  | hole {p : ℕ} (hstart : blockPtr table.head blk = .ok p)
      (hstop : blockPtr table.head (blk + 1) = .ok p) :
      TableBlock blk (List.replicate (blockShare table.blockSize table.size blk) 0)
  | stored {a b : ℕ} {cbuf bytes : List UInt8} (hstart : blockPtr table.head blk = .ok a)
      (hstop : blockPtr table.head (blk + 1) = .ok b) (hlt : a < b)
      (hread : vol.src.readAt (table.extentOff + a) (b - a) = .ok cbuf)
      (hbytes : codecs.inflateZlib cbuf (blockShare table.blockSize table.size blk) = some bytes) :
      TableBlock blk bytes

/-- The end pointer of the block lies before its start pointer. -/
def Backward (blk : ℕ) : Prop :=
  ∃ a b, blockPtr table.head blk = .ok a ∧ blockPtr table.head (blk + 1) = .ok b ∧ b < a

/-- Byte `o` of the file is in its block. -/
def ByteAt (o : ℕ) (b : UInt8) : Prop :=
  ∃ block, TableBlock codecs vol table (o / table.blockSize) block ∧
    block[o % table.blockSize]? = some b

/-- A read of the bytes `off..stop` looks at the block: it finds all bytes before some
byte of it. -/
def Touches (off stop blk : ℕ) : Prop :=
  ∃ p, off ≤ p ∧ p < stop ∧ p / table.blockSize = blk ∧
    ∀ q, off ≤ q → q < p → ∃ b, ByteAt codecs vol table q b

/-- Where a read of `n` bytes from `off` on ends. -/
def windowEnd (off n : ℕ) : ℕ := off + min n (zi.uncompressedSize - off)

/-- No block that a read of `n` bytes looks at has pointers that run backward. -/
def TouchesForward (off n : ℕ) : Prop :=
  ∀ table blk, TableOf vol inode zi table →
    Touches codecs vol table off (windowEnd zi off n) blk → ¬Backward table blk

/-- The bytes of a read are those of the table, and a block that it looks at with pointers
that run backward is corrupt. -/
structure FollowsTable (off : ℕ) (buf : List UInt8) (r : Outcome (ℕ × List UInt8)) : Prop where
  bytes : ∀ n window, r = .ok (n, window) →
    off + n ≤ max off (windowEnd zi off buf.length) ∧ window.drop n = buf.drop n ∧
      ∀ k < n, ∃ table b, TableOf vol inode zi table ∧ window[k]? = some b ∧
        ByteAt codecs vol table (off + k) b
  corrupt : ∀ table blk, TableOf vol inode zi table →
    Touches codecs vol table off (windowEnd zi off buf.length) blk → Backward table blk →
      ∃ what, r = fail (.corrupt what)

end Table

section Follows

variable {ρ : Type} {codecs : Codecs ρ} {vol : Volume} {inode : Inode} {zi : Zisofs}
  {table : BlockTable}

theorem tableBlock_of_ok {blk cstart cend : ℕ} {block : List UInt8}
    (hstart : blockPtr table.head blk = .ok cstart)
    (hstop : blockPtr table.head (blk + 1) = .ok cend) (hforward : ¬Backward table blk)
    (h : zisofsBlock codecs vol table.extentOff cstart cend
      (blockShare table.blockSize table.size blk) = .ok block) :
    TableBlock codecs vol table blk block := by
  unfold zisofsBlock at h
  split at h
  · rename_i hle
    obtain rfl := Except.ok.inj h
    obtain rfl : cend = cstart := by
      by_contra hne
      exact hforward ⟨cstart, cend, hstart, hstop, by omega⟩
    exact .hole hstart hstop
  · obtain ⟨clen, hclen, h⟩ := bind_eq_ok.mp h
    obtain ⟨-, rfl⟩ := checkedFullReadLen_eq_ok.mp hclen
    obtain ⟨at_, hat, h⟩ := bind_eq_ok.mp h
    obtain ⟨-, rfl⟩ := fits_eq_ok.mp hat
    obtain ⟨cbuf, hcbuf, h⟩ := bind_eq_ok.mp h
    obtain ⟨share, hshare, h⟩ := bind_eq_ok.mp h
    obtain ⟨-, rfl⟩ := checkedBlockLen_eq_ok.mp hshare
    exact .stored hstart hstop (by omega) hcbuf (okOr_eq_ok.mp h)

theorem TableBlock.byteAt {cur p n : ℕ} {block bytes : List UInt8}
    (h : TableBlock codecs vol table (cur / table.blockSize) block)
    (hmax : block.length ≤ table.blockSize) (hp : p = cur % table.blockSize)
    (hbytes : slice block p n = some bytes) {k : ℕ} (hk : k < bytes.length) :
    ∃ b, bytes[k]? = some b ∧ ByteAt codecs vol table (cur + k) b := by
  have hlen := slice_length hbytes
  have hfit := (slice_eq_some.mp hbytes).1
  have hsplit := Nat.div_add_mod' cur table.blockSize
  have hin : cur + k < (cur / table.blockSize + 1) * table.blockSize := by
    rw [Nat.succ_mul]
    omega
  obtain ⟨hdiv, hmod⟩ := same_piece hin
  have hitem := slice_getElem? hbytes (hlen ▸ hk)
  refine ⟨bytes[k], List.getElem?_eq_getElem hk, block, ?_, ?_⟩
  · rw [hdiv]
    exact h
  · rw [← List.getElem?_eq_getElem hk, hitem, hmod, hp]

theorem zisofsFrom_bytes {off stop cur : ℕ} {out data : List UInt8}
    (hforward : ∀ blk, Touches codecs vol table off stop blk → ¬Backward table blk)
    (hoff : off ≤ cur) (hfound : ∀ q, off ≤ q → q < cur → ∃ b, ByteAt codecs vol table q b)
    (h : zisofsFrom codecs vol table.head table.extentOff table.blockSize table.size stop cur out =
      .ok data) :
    ∃ more, data = out ++ more ∧ cur + more.length ≤ max cur stop ∧
      ∀ k < more.length, ∃ b, more[k]? = some b ∧ ByteAt codecs vol table (cur + k) b := by
  fun_induction zisofsFrom codecs vol table.head table.extentOff table.blockSize table.size stop
    cur out with
  | case1 cur out hlt blk ih =>
    have hbase : blk * table.blockSize ≤ cur := Nat.div_mul_le_self cur table.blockSize
    have hsplit : blk * table.blockSize + cur % table.blockSize = cur :=
      Nat.div_add_mod' cur table.blockSize
    obtain ⟨base, hbase', h⟩ := bind_eq_ok.mp h
    obtain ⟨-, rfl⟩ := fits_eq_ok.mp hbase'
    obtain ⟨left, hleft, h⟩ := bind_eq_ok.mp h
    obtain ⟨-, rfl⟩ := minus_eq_ok.mp hleft
    obtain ⟨cstart, hcstart, h⟩ := bind_eq_ok.mp h
    obtain ⟨cend, hcend, h⟩ := bind_eq_ok.mp h
    obtain ⟨block, hblock, h⟩ := bind_eq_ok.mp h
    obtain ⟨inBlk, hinBlk, h⟩ := bind_eq_ok.mp h
    obtain ⟨-, rfl⟩ := minus_eq_ok.mp hinBlk
    have htouched := hforward blk ⟨cur, hoff, hlt, rfl, hfound⟩
    have htable : TableBlock codecs vol table blk block :=
      tableBlock_of_ok hcstart hcend htouched hblock
    dsimp only at h
    split at h
    · obtain rfl := Except.ok.inj h
      exact ⟨[], (List.append_nil _).symm, by simp, by simp⟩
    · rename_i htake
      obtain ⟨bytes, hbytes, h⟩ := bind_eq_ok.mp h
      have hlen := slice_length (unwrap_eq_ok.mp hbytes)
      -- the bytes taken lie in the block of the first of them
      have hmax : block.length ≤ table.blockSize :=
        (inflatedBlock_le (bind_eq_ok.mpr ⟨cstart, hcstart,
          bind_eq_ok.mpr ⟨cend, hcend, hblock⟩⟩)).trans (Nat.min_le_left ..)
      have hpiece : ∀ k < bytes.length, ∃ b, bytes[k]? = some b ∧
          ByteAt codecs vol table (cur + k) b := fun k hk =>
        htable.byteAt hmax (by omega) (unwrap_eq_ok.mp hbytes) hk
      have hfound' : ∀ q, off ≤ q → q < cur + bytes.length → ∃ b, ByteAt codecs vol table q b := by
        intro q hq hlt
        rcases Nat.lt_or_ge q cur with hbefore | hafter
        · exact hfound q hq hbefore
        · obtain ⟨k, rfl⟩ := Nat.exists_eq_add_of_le hafter
          obtain ⟨b, -, hb⟩ := hpiece k (by omega)
          exact ⟨b, hb⟩
      rw [hlen] at hfound'
      obtain ⟨more, rfl, hmore, hitems⟩ := ih block _ htake bytes (by omega) hfound' h
      rw [← hlen] at hmore hitems
      refine ⟨bytes ++ more, List.append_assoc .., ?_, ?_⟩
      · rw [List.length_append]
        omega
      · intro k hk
        rw [List.length_append] at hk
        rcases Nat.lt_or_ge k bytes.length with hfirst | hrest
        · obtain ⟨b, hb, hat⟩ := hpiece k hfirst
          exact ⟨b, by rw [List.getElem?_append_left hfirst]; exact hb, hat⟩
        · obtain ⟨b, hb, hat⟩ := hitems (k - bytes.length) (by omega)
          refine ⟨b, by rw [List.getElem?_append_right hrest]; exact hb, ?_⟩
          rwa [Nat.add_assoc, Nat.add_sub_cancel' hrest] at hat
  | case2 cur out hge =>
    obtain rfl := Except.ok.inj h
    exact ⟨[], (List.append_nil _).symm, by simp, by simp⟩

/-- An error that does not say that the file is corrupt. -/
def NotCorrupt (e : FoldError) : Prop := ∀ what, e ≠ .corrupt what

theorem zisofsBlock_raises {extentOff cstart cend uncompressed : ℕ} :
    RaisesOnly NotCorrupt (zisofsBlock codecs vol extentOff cstart cend uncompressed) := by
  have hcap : ∀ n max, RaisesOnly NotCorrupt (checkedLen n max) := by
    intro n max
    exact .ite (fun _ => .fail fun _ h => by cases h) fun _ => .ok _
  refine .ite (fun _ => .ok _) fun _ => ?_
  refine .bind (hcap _ _) fun clen _ => .bind .fits fun at_ _ => .bind ?_ fun cbuf _ => ?_
  · exact .ite (fun _ => .fail fun _ h => by cases h) fun _ => .okOr fun _ h => by cases h
  · exact .bind (hcap _ _) fun _ _ => .okOr fun _ h => by cases h

/-- The loop never says that the file is corrupt. -/
theorem zisofsFrom_raises {head : List UInt8} {extentOff blockSize size stop cur : ℕ}
    {out : List UInt8} :
    RaisesOnly NotCorrupt
      (zisofsFrom codecs vol head extentOff blockSize size stop cur out) := by
  have hptr : ∀ i, RaisesOnly NotCorrupt (blockPtr head i) :=
    fun i => .bind .unwrap fun _ _ => .ok _
  fun_induction zisofsFrom codecs vol head extentOff blockSize size stop cur out with
  | case1 cur out hlt blk ih =>
    refine .bind .fits fun base _ => .bind .minus fun left _ => ?_
    refine .bind (hptr _) fun cstart _ => .bind (hptr _) fun cend _ => ?_
    refine .bind zisofsBlock_raises fun block _ => .bind .minus fun inBlk _ => ?_
    exact .ite (fun _ => .ok _) fun htake => .bind .unwrap fun bytes _ =>
      ih block inBlk htake bytes
  | case2 cur out hge => exact .ok _

theorem TableOf.unique {table' : BlockTable} (h : TableOf vol inode zi table)
    (h' : TableOf vol inode zi table') : table = table' := by
  obtain ⟨head, hhead, rfl⟩ := h
  obtain ⟨head', hhead', rfl⟩ := h'
  obtain rfl := Except.ok.inj (hhead.read.symm.trans hhead'.read)
  rfl

/-- Once its table is found, a read inside a compressed file is the loop. -/
theorem readZisofs_of_table (hvol : vol.Bounded) (hinode : inode.Bounded)
    (hzi : inode.zisofs = some zi) (htable : TableOf vol inode zi table) {off : ℕ}
    {buf : List UInt8} (hoff : off < zi.uncompressedSize) :
    readZisofs codecs vol inode zi off buf = (do
      let data ← zisofsFrom codecs vol table.head table.extentOff table.blockSize table.size
        (windowEnd zi off buf.length) off []
      return (data.length, overwrite buf 0 data)) := by
  obtain ⟨head, hhead, rfl⟩ := htable
  have hlog2 := Nat.not_le.mpr hhead.log2_lt
  rw [readZisofs_eq hvol hinode hzi (Nat.not_le.mpr hoff) hlog2,
    checkedFullReadLen_eq_ok.mpr ⟨hhead.len_le, rfl⟩, ok_bind, hhead.read, ok_bind, hhead.magic,
    unwrap, ok_bind, if_neg (not_not.mpr rfl)]
  rfl

/-- A read of a compressed file follows its table exactly when no block that it looks at
has pointers that run backward. -/
theorem readZisofs_follows_iff (hvol : vol.Bounded) (hinode : inode.Bounded)
    (hzi : inode.zisofs = some zi) (off : ℕ) (buf : List UInt8) :
    FollowsTable codecs vol inode zi off buf (readZisofs codecs vol inode zi off buf) ↔
      TouchesForward codecs vol inode zi off buf.length := by
  constructor
  · intro h table blk htable htouches hback
    obtain ⟨what, hwhat⟩ := h.corrupt table blk htable htouches hback
    obtain ⟨p, hp, hstop, -⟩ := htouches
    unfold windowEnd at hstop
    have hraises : RaisesOnly NotCorrupt (readZisofs codecs vol inode zi off buf) := by
      rw [readZisofs_of_table hvol hinode hzi htable (by omega)]
      exact .bind zisofsFrom_raises fun _ _ => .ok _
    exact hraises _ hwhat what rfl
  · intro hforward
    refine ⟨?_, fun table blk htable htouches hback =>
      absurd hback (hforward table blk htable htouches)⟩
    intro n window h
    rcases Nat.lt_or_ge off zi.uncompressedSize with hin | hpast
    · obtain ⟨head, -, hhead, -⟩ := (readZisofs_eq_ok hvol hinode hzi hin).mp h
      have htable : TableOf vol inode zi _ := ⟨head, hhead, rfl⟩
      rw [readZisofs_of_table hvol hinode hzi htable hin] at h
      obtain ⟨data, hdata, h⟩ := bind_eq_ok.mp h
      obtain ⟨rfl, rfl⟩ := Prod.mk.inj (Except.ok.inj h)
      obtain ⟨more, hmore, hend, hitems⟩ := zisofsFrom_bytes (fun blk => hforward _ blk htable)
        (Nat.le_refl off) (fun q hq hlt => absurd hlt (Nat.not_lt.mpr hq)) hdata
      obtain rfl : data = more := hmore.trans (List.nil_append more)
      have hfit : data.length ≤ buf.length := by
        unfold windowEnd at hend
        omega
      refine ⟨hend, ?_, ?_⟩
      · simp [overwrite]
      · intro k hk
        obtain ⟨b, hb, hat⟩ := hitems k hk
        refine ⟨_, b, htable, ?_, hat⟩
        simpa [overwrite, List.getElem?_append_left hk] using hb
    · unfold readZisofs at h
      rw [if_pos hpast] at h
      obtain ⟨rfl, rfl⟩ := Prod.mk.inj (Except.ok.inj h)
      exact ⟨Nat.le_max_left .., rfl, fun k hk => absurd hk (Nat.not_lt_zero k)⟩

theorem exec_readAt_zisofs {t : Iso9660} {node : NodeId} (hnode : t.table.inode node = .ok inode)
    (hkind : inode.kind ≠ .directory) (hzi : inode.zisofs = some zi) (off : ℕ)
    (buf : List UInt8) :
    (exec ((frontend true codecs).readAt node off buf) t).1 =
      readZisofs codecs t.vol inode zi off buf := by
  have hfound : exec (Iso9660.inode node) t = (.ok inode, t) := Prod.ext hnode rfl
  change (exec (readAt true codecs node off buf) t).1 = _
  rw [readAt, exec_bind_of_ok hfound, if_neg hkind, exec_bind, exec_get, hzi]
  rfl

/-- In any state that a mounted volume can reach, reads of a compressed file follow its
table exactly when no block that they look at has pointers that run backward. -/
theorem readAt_follows_iff (codecs : Codecs ρ) {src : Source} {s t : Iso9660}
    (hmount : mount src = .ok s) (hrun : Reaches (fun _ : Unit => frontend true codecs) s t)
    {node : NodeId} (hnode : t.table.inode node = .ok inode) (hkind : inode.kind ≠ .directory)
    (hzi : inode.zisofs = some zi) (off : ℕ) (buf : List UInt8) :
    FollowsTable codecs t.vol inode zi off buf
        (exec ((frontend true codecs).readAt node off buf) t).1 ↔
      TouchesForward codecs t.vol inode zi off buf.length := by
  obtain ⟨hopened, -, hvol⟩ := mount_opened hmount
  have ht := hrun.keeps (fun _ => frontend_keeps_opened s.vol) hopened
  rw [← ht.vol_eq] at hvol
  rw [exec_readAt_zisofs hnode hkind hzi]
  exact readZisofs_follows_iff hvol (ht.nodes.inode hnode) hzi off buf

end Follows

/-- A primary descriptor with blocks of 512 bytes, whose root directory is at block 68. -/
def zisofsDescriptor : List UInt8 :=
  [1] ++ standardId ++ List.replicate 122 0 ++ [0, 2] ++ List.replicate 26 0 ++
    [0, 0, 68, 0, 0, 0, 0, 0, 0, 0, 92] ++ List.replicate 1881 0

/-- The root directory: its own record, with the entry that turns Rock Ridge on, and the
record of `A`, at block 69, with one that says it is compressed: one byte in all. -/
def zisofsRoot : List UInt8 :=
  [42, 0, 68] ++ List.replicate 29 0 ++ [1, 0] ++ [0x53, 0x50, 7, 1, 0xBE, 0xEF, 0, 0] ++
    [50, 0, 69, 0, 0, 0, 0, 0, 0, 0, 32] ++ List.replicate 21 0 ++ [1, 0x41] ++
    [0x5A, 0x46, 16, 1, 0x70, 0x7A, 4, 15, 1, 0, 0, 0, 0, 0, 0, 1]

/-- The stored file: its header, and pointers 32 and 24 for its one block. -/
def backwardFile : List UInt8 :=
  zisofsMagic ++ [1, 0, 0, 0, 4, 15, 0, 0] ++ [32, 0, 0, 0, 24, 0, 0, 0] ++ List.replicate 8 0

def backwardRest : List UInt8 := zisofsRoot ++ List.replicate 420 0 ++ backwardFile

theorem zisofsDescriptor_length : zisofsDescriptor.length = vdSize := by decide +kernel

/-- A volume with that file. -/
def backwardPointers : Source where
  content := List.replicate vdRegionOffset 0 ++ (zisofsDescriptor ++ backwardRest)
  length_lt := by
    rw [List.length_append, List.length_replicate, List.length_append, zisofsDescriptor_length]
    decide +kernel

def zisofsRootInode : Inode := ⟨rootKey, 68, 92, [(68, 92)], .directory, none, none⟩

/-- The inode of the compressed file. -/
def zisofsInode : Inode := ⟨(68, 42), 69, 32, [(69, 32)], .regular, none, some ⟨1, 15⟩⟩

theorem smallBlock_pos : 0 < 512 := by decide

def zisofsPrimary : PrimaryVd := ⟨512, smallBlock_pos, zisofsRootInode⟩

theorem backwardPointers_oneVd :
    OneVd backwardPointers zisofsDescriptor backwardRest zisofsPrimary where
  content_eq := rfl
  length_eq := zisofsDescriptor_length
  rest_lt := by decide +kernel
  id_eq := by decide +kernel
  type_eq := rfl
  primary_eq := by decide +kernel

theorem readDirExtent_backward :
    readDirExtent backwardPointers 512 zisofsRootInode = .ok zisofsRoot := by
  have hrest : slice backwardRest 0 92 = some zisofsRoot := by decide +kernel
  have hslice := slice_append_right zisofsDescriptor backwardRest 0 92
  rw [zisofsDescriptor_length, hrest] at hslice
  have hat : vdRegionOffset + (vdSize + 0) = 68 * 512 := by decide
  have hread := backwardPointers_oneVd.readAt hslice
  rw [hat] at hread
  have hlen : checkedFullReadLen zisofsRootInode.size = .ok 92 :=
    checkedFullReadLen_eq_ok.mpr ⟨by decide, rfl⟩
  have hoff : u64 (zisofsRootInode.lba * 512) = .ok (68 * 512) :=
    u64_offset (by decide) (by decide)
  rw [readDirExtent, hlen, lift_ok_bind, hoff, lift_ok_bind]
  exact hread

/-- The volume when it is opened. -/
def backwardMount : Iso9660 :=
  ⟨zisofsPrimary.volume backwardPointers (some 0),
    (InternTable.empty.intern rootKey zisofsRootInode).2⟩

/-- The volume when its root directory was read. -/
def backwardListed : Iso9660 :=
  ⟨backwardMount.vol, (backwardMount.table.intern (68, 42) zisofsInode).2⟩

theorem mount_backward : mount backwardPointers = .ok backwardMount := by
  have hsp : (do
      let record ← okOr (slice zisofsRoot 0 42) (.corrupt "iso: short root record")
      let fiLen ← okOr record[Dr.lenFi]? (.corrupt "iso: short root record")
      detectSp (record.drop (suStart fiLen.toNat))) = .ok (some 0) := by decide +kernel
  have hsusp : detectSusp backwardPointers 512 zisofsRootInode = .ok (some 0) :=
    bind_eq_ok.mpr ⟨zisofsRoot, readDirExtent_backward, hsp⟩
  exact backwardPointers_oneVd.mount_eq hsusp

theorem exec_dirEntries_backward :
    exec (dirEntries 0) backwardMount = (.ok [([0x41], zisofsInode)], backwardMount) := by
  have hentries : entriesFrom backwardMount.vol 68 zisofsRoot none 0 =
      .ok [([0x41], zisofsInode)] := by decide +kernel
  have hscan : forEachEntry backwardMount.vol zisofsRootInode = .ok [([0x41], zisofsInode)] :=
    bind_eq_ok.mpr ⟨zisofsRoot, readDirExtent_backward, hentries⟩
  have hfound : exec (inode 0) backwardMount = (.ok zisofsRootInode, backwardMount) := rfl
  rw [dirEntries, exec_bind_of_ok hfound, if_neg (by decide), exec_bind, exec_get]
  exact Prod.ext hscan rfl

theorem exec_readDir_backward :
    exec (readDir 0) backwardMount = (.ok [⟨[0x41], 1, .regular⟩], backwardListed) := by
  rw [readDir, exec_bind_of_ok exec_dirEntries_backward]
  rfl

theorem reaches_backwardListed :
    Reaches (fun _ : Unit => frontend true noStreams) backwardMount backwardListed :=
  ((keeps_reaches (fun _ : Unit => frontend true noStreams) () backwardMount).readDir 0).of_exec
    .refl exec_readDir_backward

theorem readAt_follows_iff_backward :
    FollowsTable noStreams backwardListed.vol zisofsInode ⟨1, 15⟩ 0 [7]
        (exec ((frontend true noStreams).readAt 1 0 [7]) backwardListed).1 ↔
      TouchesForward noStreams backwardListed.vol zisofsInode ⟨1, 15⟩ 0 1 :=
  readAt_follows_iff noStreams mount_backward reaches_backwardListed rfl (by decide) rfl 0 [7]

/-- The span of the one block runs backward, and is read as a zero. -/
theorem readAt_backward :
    mount backwardPointers = .ok backwardMount ∧
      Reaches (fun _ : Unit => frontend true noStreams) backwardMount backwardListed ∧
      backwardListed.table.inode 1 = .ok zisofsInode ∧
      (exec ((frontend true noStreams).readAt 1 0 [7]) backwardListed).1 = .ok (1, [0]) ∧
      ¬FollowsTable noStreams backwardListed.vol zisofsInode ⟨1, 15⟩ 0 [7] (.ok (1, [0])) := by
  have hvol : backwardListed.vol.Bounded := (mount_opened mount_backward).2.2
  have hinode : zisofsInode.Bounded :=
    ⟨by decide, by decide, by decide, rfl, by decide, by intro zi hzi; cases hzi; decide⟩
  have hslice := slice_append_right zisofsDescriptor backwardRest 512 24
  have hfile : slice backwardRest 512 24 = some (backwardFile.take 24) := by decide +kernel
  rw [zisofsDescriptor_length, hfile] at hslice
  have hat : vdRegionOffset + (vdSize + 512) = 69 * 512 := by decide
  have hread := backwardPointers_oneVd.readAt hslice
  rw [hat] at hread
  have hhead : ZisofsHead backwardListed.vol zisofsInode ⟨1, 15⟩ (backwardFile.take 24) :=
    ⟨by decide, by decide, hread, by decide⟩
  have htable : TableOf backwardListed.vol zisofsInode ⟨1, 15⟩ _ := ⟨_, hhead, rfl⟩
  refine ⟨mount_backward, reaches_backwardListed, rfl, ?_, ?_⟩
  · have hdata : zisofsFrom noStreams backwardListed.vol (backwardFile.take 24) (69 * 512)
        (1 <<< 15) 1 1 0 [] = .ok [0] := by decide +kernel
    have hinode1 : backwardListed.table.inode 1 = .ok zisofsInode := rfl
    rw [exec_readAt_zisofs hinode1 (by decide) rfl,
      readZisofs_of_table hvol hinode rfl htable (by decide)]
    exact bind_eq_ok.mpr ⟨[0], hdata, rfl⟩
  · intro h
    obtain ⟨what, hwhat⟩ := h.corrupt _ 0 htable ⟨0, Nat.le_refl 0, by decide, rfl, by simp⟩
      ⟨32, 24, by decide, by decide, by decide⟩
    cases hwhat

end Lamfold.Iso9660
