import Lamfold.ErofsTrusted
import Lamfold.NodeKinds
import Lamfold.ZisofsBlocks

/-!
No silent truncation. A file is read up to where its data ends, and each frontend decides
on its own what to do when that is before its size. ISO 9660 (files stored as they are),
SquashFS, EROFS, romfs and cpio refuse such a read or never meet it. UDF with extents that
do not add up, and cramfs and zisofs with pages or blocks that inflate short, return what
there is.
-/
namespace Lamfold

open Effects Bytes Lamfold.Path

theorem Romfs.suppliedIff (r : Romfs) {node at_ : NodeId} {header : Romfs.Header}
    (hheader : Romfs.resolvedHeader r.src node = .ok (at_, header)) {P : Prop} (hP : P) :
    SuppliedIff Romfs.frontend (· = r) node header.size P := by
  refine Supplies.suppliedIff ⟨fun off buf => (Romfs.frontend_keeps _).readAt node off buf, ?_⟩ hP
  intro s off buf n window t hs _ h
  subst hs
  obtain ⟨⟨at', header'⟩, hheader', h⟩ := bind_eq_ok.mp (congrArg Prod.fst h)
  rw [hheader] at hheader'
  obtain ⟨rfl, rfl⟩ := Prod.mk.inj (Except.ok.inj hheader')
  dsimp only at h
  obtain ⟨-, h⟩ := ite_error_eq_ok.mp h
  split at h
  · obtain ⟨rfl, rfl⟩ := Prod.mk.inj (Except.ok.inj h)
    exact ⟨by omega, rfl⟩
  · obtain ⟨disk, -, h⟩ := bind_eq_ok.mp h
    obtain ⟨data, hdata, h⟩ := bind_eq_ok.mp h
    have hlen := Source.readAt_length hdata
    obtain ⟨rfl, rfl⟩ := Prod.mk.inj (Except.ok.inj h)
    exact ⟨rfl, overwrite_length (by omega)⟩

theorem Cpio.suppliedIff (c : Cpio) {id : NodeId} {n : Cpio.Node} (hn : c.node id = .ok n)
    {P : Prop} (hP : P) : SuppliedIff Cpio.frontend (· = c) id n.data.len P := by
  refine Supplies.suppliedIff ⟨fun off buf => (Cpio.frontend_keeps _).readAt id off buf, ?_⟩ hP
  intro s off buf count window t hs _ h
  subst hs
  obtain ⟨n', hn', h⟩ := bind_eq_ok.mp (congrArg Prod.fst h)
  rw [hn] at hn'
  obtain rfl := Except.ok.inj hn'
  obtain ⟨-, h⟩ := ite_error_eq_ok.mp h
  obtain ⟨data, hdata, h⟩ := bind_eq_ok.mp h
  obtain ⟨buffer, -, hdata⟩ := bind_eq_ok.mp hdata
  have hlen := slice_length (unwrap_eq_ok.mp hdata)
  split at h
  · obtain ⟨rfl, rfl⟩ := Prod.mk.inj (Except.ok.inj h)
    exact ⟨by omega, rfl⟩
  · obtain ⟨bytes, hbytes, h⟩ := bind_eq_ok.mp h
    have hcount := slice_length (unwrap_eq_ok.mp hbytes)
    obtain ⟨rfl, rfl⟩ := Prod.mk.inj (Except.ok.inj h)
    exact ⟨by rw [hlen], overwrite_length (by omega)⟩

section Streams

variable {ρ : Type} (codecs : Codecs ρ)

theorem SquashFs.readBlock_length {vol : SquashFs.Volume} {file : SquashFs.FileBody}
    {idx within want : ℕ} {bytes : List UInt8}
    (h : SquashFs.readBlock codecs vol file idx within want = .ok bytes) : bytes.length = want := by
  unfold SquashFs.readBlock at h
  split at h
  · split at h
    · cases h
      exact List.length_replicate
    · obtain ⟨at_, -, h⟩ := bind_eq_ok.mp h
      obtain ⟨block, -, h⟩ := bind_eq_ok.mp h
      exact slice_length (okOr_eq_ok.mp h)
  · split at h
    · obtain ⟨frag, -, h⟩ := bind_eq_ok.mp h
      exact slice_length (okOr_eq_ok.mp h)
    · exact absurd h (fail_ne_ok _ _)

theorem SquashFs.readBlocks_length {vol : SquashFs.Volume} {size stop pos : ℕ}
    {file : SquashFs.FileBody} {out data : List UInt8}
    (h : SquashFs.readBlocks codecs vol size file stop pos out = .ok data) :
    data.length = out.length + (stop - pos) := by
  fun_induction SquashFs.readBlocks codecs vol size file stop pos out with
  | case1 pos out hlt idx within ih =>
    obtain ⟨base, -, h⟩ := bind_eq_ok.mp h
    obtain ⟨left, -, h⟩ := bind_eq_ok.mp h
    obtain ⟨inBlock, -, h⟩ := bind_eq_ok.mp h
    dsimp only at h
    split at h
    · cases h
    · rename_i hwant
      obtain ⟨bytes, hbytes, h⟩ := bind_eq_ok.mp h
      have hlen := SquashFs.readBlock_length codecs hbytes
      rw [ih inBlock hwant bytes h, List.length_append, hlen]
      omega
  | case2 pos out hge =>
    cases h
    omega

theorem SquashFs.suppliedIff {vol : SquashFs.Volume} {node : NodeId} {inode : SquashFs.SquashInode}
    {P : Prop} (hP : P) :
    SuppliedIff (SquashFs.frontend codecs)
      (fun fs => SquashFs.Opened vol fs ∧ fs.table.inode node = .ok inode) node inode.size P := by
  have hkeeps : (SquashFs.frontend codecs).Keeps
      fun fs => SquashFs.Opened vol fs ∧ fs.table.inode node = .ok inode := by
    refine (SquashFs.frontend_keeps_opened vol).and (SquashFs.frontend_keeps ?_)
    intro other entries _
    refine Preserves.zoom (P := fun t => t.inode node = .ok inode) ?_ (fun _ h => h)
      fun _ _ h _ => h
    exact InternTable.internAll_preserves fun t r child _ _ ht => InternTable.inode_intern ht r child
  refine Supplies.suppliedIff ⟨fun off buf => hkeeps.readAt node off buf, ?_⟩ hP
  intro s off buf n window t hs _ h
  obtain ⟨inode', u, hinode', h⟩ := exec_bind_eq_ok.mp h
  obtain ⟨hfound, rfl⟩ := Prod.mk.inj ((SquashFs.exec_inode node s).symm.trans hinode')
  obtain rfl := Except.ok.inj (hs.2.symm.trans hfound)
  split at h
  · rename_i file _
    obtain ⟨hfile, -⟩ := Prod.mk.inj h
    unfold SquashFs.readFile at hfile
    split at hfile
    · obtain ⟨rfl, rfl⟩ := Prod.mk.inj (Except.ok.inj hfile)
      exact ⟨by omega, rfl⟩
    · obtain ⟨asked, hasked, hfile⟩ := bind_eq_ok.mp hfile
      obtain ⟨-, rfl⟩ := fits_eq_ok.mp hasked
      obtain ⟨data, hdata, hfile⟩ := bind_eq_ok.mp hfile
      have hlen := SquashFs.readBlocks_length codecs hdata
      rw [List.length_nil, Nat.zero_add] at hlen
      obtain ⟨rfl, rfl⟩ := Prod.mk.inj (Except.ok.inj hfile)
      exact ⟨by omega, overwrite_length (by omega)⟩
  · split at h
    · cases h
    · cases h

theorem Iso9660.keeps_inode {zisofs : Bool} (vol : Iso9660.Volume) (node : NodeId)
    (inode : Iso9660.Inode) :
    (Iso9660.frontend zisofs codecs).Keeps
      fun iso => Iso9660.Opened vol iso ∧ iso.table.inode node = .ok inode := by
  refine (Iso9660.frontend_keeps_opened vol).and ?_
  refine Iso9660.frontend_keeps (P := fun t => t.inode node = .ok inode) ?_ (fun _ h => h)
    fun _ _ h _ => h
  intro t key new _ ht
  exact InternTable.inode_intern ht key new

theorem Iso9660.suppliedIff_plain {zisofs : Bool} {vol : Iso9660.Volume} {node : NodeId}
    {inode : Iso9660.Inode} (hinode : inode.Bounded) (hzi : inode.zisofs = none) {P : Prop}
    (hP : P) :
    SuppliedIff (Iso9660.frontend zisofs codecs)
      (fun iso => Iso9660.Opened vol iso ∧ iso.table.inode node = .ok inode) node inode.size P := by
  refine Supplies.suppliedIff
    ⟨fun off buf => (Iso9660.keeps_inode codecs vol node inode).readAt node off buf, ?_⟩ hP
  intro s off buf n window t hs _ h
  obtain ⟨inode', u, hinode', h⟩ := exec_bind_eq_ok.mp h
  obtain ⟨hfound, rfl⟩ := Prod.mk.inj hinode'
  obtain rfl := Except.ok.inj (hs.2.symm.trans hfound)
  split at h
  · cases h
  · rw [exec_bind, exec_get, hzi] at h
    obtain ⟨hread, -⟩ := Prod.mk.inj h
    unfold Iso9660.readPlain at hread
    split at hread
    · obtain ⟨rfl, rfl⟩ := Prod.mk.inj (Except.ok.inj hread)
      exact ⟨by omega, rfl⟩
    · obtain ⟨data, hdata, hread⟩ := bind_eq_ok.mp hread
      have hlen := readExtents_length ?_ (.inl (Nat.zero_le _)) hdata
      · rw [List.length_nil, Nat.zero_add, ← hinode.size_eq] at hlen
        obtain ⟨rfl, rfl⟩ := Prod.mk.inj (Except.ok.inj hread)
        exact ⟨by omega, overwrite_length (by omega)⟩
      · intro e intra count bytes hbytes
        obtain ⟨start, -, hbytes⟩ := bind_eq_ok.mp hbytes
        obtain ⟨at_, -, hbytes⟩ := bind_eq_ok.mp hbytes
        exact Source.readAt_length hbytes

/-- What reads of a window leaves the inode parsed. -/
theorem Erofs.readWindow_cached {verifier : Verifier} {node : NodeId} {off n : ℕ}
    {w w' : Erofs.Window}
    (h : exec (Erofs.readWindow codecs verifier node off) w = (.ok n, w')) :
    ∃ inode, w'.fs.inodes[node]? = some inode := by
  obtain ⟨_, w₁, -, h⟩ := exec_bind_eq_ok.mp h
  obtain ⟨inode, w₂, hinode, h⟩ := exec_bind_eq_ok.mp h
  have hrun : exec (Erofs.onVolume (Erofs.inode node)) w₁ =
      (okOr w₁.fs.inodes[node]? .notFound, w₁) := by
    unfold Erofs.onVolume
    rw [exec_zoom, Erofs.exec_inode]
  obtain ⟨hfound, rfl⟩ := Prod.mk.inj (hrun.symm.trans hinode)
  have hrest : Preserves (fun u : Erofs.Window => Erofs.Fixed node inode w₁.fs.vol.blockSize u.fs)
      (if inode.kind = .directory then throw (.err .isDirectory)
        else if off ≥ inode.size then return 0
        else do
          let w ← get
          let asked ← u64 (off + w.buf.length)
          let bs := w.fs.vol.blockSize
          Erofs.readBlocks codecs verifier node w.fs.vol off (min asked inode.size) inode.size
            (off / bs * bs) 0 : Method Erofs.Window ℕ) := by
    refine Preserves.ite (Preserves.throw _ _) (Preserves.ite (Preserves.pure _ _) ?_)
    refine Preserves.bind (Preserves.get _) ?_
    intro w
    refine Preserves.bind (Preserves.lift _ _) ?_
    intro asked
    exact (Erofs.cacheKept_fixed codecs node inode _).readBlocks verifier node w.fs.vol off _ _ _ _
  have hfixed := hrest.of_exec ⟨okOr_eq_ok.mp hfound, rfl⟩ h
  exact ⟨inode, hfixed.1⟩

theorem Erofs.suppliedIff {verifier : Verifier} {vol : Erofs.Volume} {node : NodeId}
    {inode : Erofs.Inode} {P : Prop} (hP : P) :
    SuppliedIff (Erofs.frontend codecs verifier)
      (fun fs => Erofs.Holds codecs vol fs ∧ Erofs.readInode vol node = .ok inode) node inode.size
      P := by
  have hkeeps := (Erofs.cacheKept_holds codecs vol).frontend verifier
  refine Supplies.suppliedIff ⟨?_, ?_⟩ hP
  · intro off buf fs hfs
    exact ⟨hkeeps.readAt node off buf fs hfs.1, hfs.2⟩
  · intro fs off buf n window t hfs _ h
    have hreport := Erofs.readWindow_report codecs verifier node off buf fs
    have hholds : Erofs.Holds codecs vol
        (exec (Erofs.readWindow codecs verifier node off) (.start fs buf)).2.fs :=
      (Erofs.cacheKept_holds codecs vol).readWindow verifier node off (.start fs buf) hfs.1
    have hread := (Erofs.exec_readAt verifier node off buf fs).symm.trans h
    rcases hrun : exec (Erofs.readWindow codecs verifier node off) (.start fs buf) with ⟨_ | m, w⟩
    · rw [hrun] at hread
      cases hread
    · rw [hrun] at hread hreport hholds
      obtain ⟨hcount, rfl⟩ := Prod.mk.inj hread
      obtain ⟨rfl, rfl⟩ := Prod.mk.inj (Except.ok.inj hcount)
      obtain ⟨found, hfound⟩ := Erofs.readWindow_cached codecs hrun
      have hsame : found = inode :=
        Except.ok.inj ((hholds.inodes node found hfound).symm.trans hfs.2)
      have hcomplete := hreport.complete m rfl
      have hsize : w.fs.fileSize node = inode.size := by
        rw [Erofs.fileSize, hfound, hsame]
        rfl
      have hcount := hcomplete.count
      rw [hsize] at hcount
      exact ⟨by omega, hcomplete.buf_length⟩

theorem Iso9660.suppliedIff_zisofs {vol : Iso9660.Volume} (hvol : vol.Bounded) {node : NodeId}
    {inode : Iso9660.Inode} (hinode : inode.Bounded) (hkind : inode.kind ≠ .directory)
    {zi : RockRidge.Zisofs} (hzi : inode.zisofs = some zi) :
    SuppliedIff (Iso9660.frontend true codecs)
      (fun iso => Iso9660.Opened vol iso ∧ iso.table.inode node = .ok inode) node
      zi.uncompressedSize (Iso9660.ZisofsWhole codecs vol inode zi) := by
  have hexec : ∀ iso off buf, Iso9660.Opened vol iso ∧ iso.table.inode node = .ok inode →
      exec ((Iso9660.frontend true codecs).readAt node off buf) iso =
        (Iso9660.readZisofs codecs vol inode zi off buf, iso) := by
    intro iso off buf hiso
    have hfound : exec (Iso9660.inode node) iso = (.ok inode, iso) :=
      Prod.ext hiso.2 rfl
    refine (exec_bind_of_ok hfound).trans ?_
    rw [if_neg hkind, exec_bind, exec_get, hzi, ← hiso.1.vol_eq]
    rfl
  obtain ⟨avail, -, hwhole, hcount, hshort⟩ := Iso9660.exists_zisofs_avail codecs hvol hinode hzi
  refine ⟨avail, ⟨?_, ?_⟩, hwhole, ?_⟩
  · exact fun off buf => (Iso9660.keeps_inode codecs vol node inode).readAt node off buf
  · intro s off buf n window t hs hoff h
    rw [hexec s off buf hs] at h
    exact hcount off buf n window hoff (Prod.mk.inj h).1
  · intro hlt s hs
    obtain ⟨⟨n, window⟩, hread⟩ := hshort hlt
    exact ⟨n, window, s, (hexec s avail [0] hs).trans (Prod.ext hread rfl)⟩

end Streams

namespace Udf

theorem keeps_inode (vol : Volume) (node : NodeId) (inode : UdfInode) :
    frontend.Keeps fun u => Opened vol u ∧ u.table.inode node = .ok inode := by
  refine (frontend_keeps_opened vol).and (frontend_keeps ?_)
  intro other fids _
  refine Preserves.zoom (P := fun t => t.inode node = .ok inode) ?_ (fun _ h => h) fun _ _ h _ => h
  exact InternTable.internAll_preserves fun t r child _ _ ht => InternTable.inode_intern ht r child

theorem exec_readAt {vol : Volume} {node : NodeId} {inode : UdfInode}
    (hkind : inode.kind ≠ .directory) {u : Udf}
    (hu : Opened vol u ∧ u.table.inode node = .ok inode) (off : ℕ) (buf : List UInt8) :
    exec (frontend.readAt node off buf) u =
      (if off ≥ inode.size then .ok (0, buf)
        else do
          let data ← readData vol inode.data off (min buf.length (inode.size - off))
          return (data.length, overwrite buf 0 data), u) := by
  have hfound : exec (Udf.inode node) u = (.ok inode, u) := Prod.ext hu.2 rfl
  refine (exec_bind_of_ok hfound).trans ?_
  rw [if_neg hkind, exec_ite, ← hu.1.vol_eq]
  split
  · rfl
  · rw [exec_bind, exec_get]
    dsimp only
    rw [exec_bind, exec_lift]
    cases readData u.vol inode.data off (min buf.length (inode.size - off)) with
    | ok data => rfl
    | error e => rfl

/-- The extents hold as much as the File Entry declares; inline data always does. -/
def FileData.Holds (size : ℕ) : FileData → Prop
  | .inline _ => True
  | .extents ex => size ≤ totalLen Extent.len ex

theorem suppliedIff {vol : Volume} {node : NodeId} {inode : UdfInode} (hinode : inode.Bounded)
    (hkind : inode.kind ≠ .directory) :
    SuppliedIff frontend (fun u => Opened vol u ∧ u.table.inode node = .ok inode) node inode.size
      (inode.data.Holds inode.size) := by
  have hkept : ∀ off buf, Preserves (fun u => Opened vol u ∧ u.table.inode node = .ok inode)
      (frontend.readAt node off buf) :=
    fun off buf => (keeps_inode vol node inode).readAt node off buf
  have hdata := hinode.data
  cases hbody : inode.data with
  | inline bytes =>
    rw [hbody] at hdata
    have hlen : bytes.length = inode.size := hdata
    refine Supplies.suppliedIff ⟨hkept, ?_⟩ trivial
    intro s off buf n window t hs _ h
    rw [exec_readAt hkind hs] at h
    obtain ⟨h, -⟩ := Prod.mk.inj h
    split at h
    · obtain ⟨rfl, rfl⟩ := Prod.mk.inj (Except.ok.inj h)
      exact ⟨by omega, rfl⟩
    · rw [hbody] at h
      obtain ⟨data, hslice, h⟩ := bind_eq_ok.mp h
      have hcount := slice_length (unwrap_eq_ok.mp hslice)
      obtain ⟨rfl, rfl⟩ := Prod.mk.inj (Except.ok.inj h)
      exact ⟨by omega, overwrite_length (by omega)⟩
  | extents ex =>
    rw [hbody] at hdata
    have htotal := hdata.2
    have hsize := hinode.size_lt
    refine ⟨min inode.size (totalLen Extent.len ex), ⟨hkept, ?_⟩, ?_, ?_⟩
    · intro s off buf n window t hs hoff h
      rw [exec_readAt hkind hs] at h
      obtain ⟨h, -⟩ := Prod.mk.inj h
      split at h
      · obtain ⟨rfl, rfl⟩ := Prod.mk.inj (Except.ok.inj h)
        exact ⟨by omega, rfl⟩
      · rw [hbody] at h
        obtain ⟨data, hread, h⟩ := bind_eq_ok.mp h
        have hlen := readExtents_length ?_ (.inl (Nat.zero_le _)) hread
        · rw [List.length_nil, Nat.zero_add] at hlen
          obtain ⟨rfl, rfl⟩ := Prod.mk.inj (Except.ok.inj h)
          exact ⟨by omega, overwrite_length (by omega)⟩
        · intro e intra count bytes hbytes
          unfold readExtent at hbytes
          split at hbytes
          · obtain ⟨disk, -, hbytes⟩ := bind_eq_ok.mp hbytes
            exact Source.readAt_length hbytes
          · cases hbytes
            exact List.length_replicate
    · unfold FileData.Holds
      omega
    · intro hlt s hs
      have hpast : readData vol inode.data (min inode.size (totalLen Extent.len ex))
          (min [(0 : UInt8)].length (inode.size - min inode.size (totalLen Extent.len ex))) =
            .ok [] := by
        rw [hbody]
        exact readExtents_past (by omega) (by omega)
      refine ⟨0, [0], s, ?_⟩
      rw [exec_readAt hkind hs, if_neg (by omega), hpast]
      rfl

end Udf

namespace Cramfs

variable {ρ : Type} (codecs : Codecs ρ)

/-- When the pages can be read they inflate to the size of the file. -/
def PagesWhole (src : Source) (inode : CrInode) : Prop :=
  ∀ n, PagesHold codecs src inode n → n = inode.size

theorem pagesHold_le {src : Source} {inode : CrInode} {n : ℕ}
    (h : PagesHold codecs src inode n) : n ≤ inode.size := by
  obtain ⟨idx, pages, data, -, -, hdata, rfl⟩ := h
  exact inflatePages_le hdata

theorem exec_readAt {c : Cramfs} {node : NodeId} {inode : CrInode}
    (hinode : parseInode c.src node = .ok inode) (hkind : kind inode.mode ≠ .directory) (off : ℕ)
    (buf : List UInt8) :
    exec ((frontend codecs).readAt node off buf) c =
      (if off ≥ inode.size then .ok (0, buf)
        else do
          let data ← readWhole codecs c.src inode
          let n := min buf.length (data.length - off)
          let window ← unwrap (slice data off n)
          return (n, overwrite buf 0 window), c) := by
  refine Prod.ext ?_ rfl
  show c.readAt codecs node off buf = _
  unfold readAt
  rw [hinode, ok_bind, if_neg hkind]
  rfl

theorem suppliedIff (c : Cramfs) {node : NodeId} {inode : CrInode}
    (hinode : parseInode c.src node = .ok inode) (hkind : kind inode.mode ≠ .directory) :
    SuppliedIff (frontend codecs) (· = c) node inode.size (PagesWhole codecs c.src inode) := by
  obtain ⟨hsize, hoff, -⟩ := parseInode_bounds hinode
  have hkept : ∀ off buf, Preserves (· = c) ((frontend codecs).readAt node off buf) :=
    fun off buf => (frontend_keeps codecs _).readAt node off buf
  by_cases hpos : 0 < inode.size
  · have hiff : ∀ n, _ := fun n => @readWhole_length_iff _ codecs c.src inode n hpos hsize hoff
    by_cases hread : ∃ data, readWhole codecs c.src inode = .ok data
    · obtain ⟨whole, hwhole⟩ := hread
      have hholds := (hiff whole.length).mp ⟨whole, hwhole, rfl⟩
      have hle := pagesHold_le codecs hholds
      refine ⟨whole.length, ⟨hkept, ?_⟩, ?_, ?_⟩
      · intro s off buf n window t hs havail h
        subst hs
        rw [exec_readAt codecs hinode hkind] at h
        obtain ⟨h, -⟩ := Prod.mk.inj h
        split at h
        · obtain ⟨rfl, rfl⟩ := Prod.mk.inj (Except.ok.inj h)
          exact ⟨by omega, rfl⟩
        · rw [hwhole, ok_bind] at h
          obtain ⟨bytes, hbytes, h⟩ := bind_eq_ok.mp h
          have hcount := slice_length (unwrap_eq_ok.mp hbytes)
          obtain ⟨rfl, rfl⟩ := Prod.mk.inj (Except.ok.inj h)
          exact ⟨rfl, overwrite_length (by omega)⟩
      · constructor
        · intro hfull n hn
          obtain ⟨data, hdata, rfl⟩ := (hiff n).mpr hn
          rw [hwhole] at hdata
          obtain rfl := Except.ok.inj hdata
          omega
        · intro hall
          exact (hall _ hholds).ge
      · intro hlt s hs
        subst hs
        have hnone : slice whole whole.length
            (min [(0 : UInt8)].length (whole.length - whole.length)) = some [] := by
          rw [Nat.sub_self, Nat.min_zero]
          exact slice_eq_some.mpr ⟨le_rfl, List.take_zero⟩
        refine ⟨0, [0], s, ?_⟩
        rw [exec_readAt codecs hinode hkind, if_neg (Nat.not_le.mpr hlt), hwhole, ok_bind]
        dsimp only
        rw [hnone, Nat.sub_self]
        rfl
    · refine Supplies.suppliedIff ⟨hkept, ?_⟩ ?_
      · intro s off buf n window t hs havail h
        subst hs
        rw [exec_readAt codecs hinode hkind] at h
        obtain ⟨h, -⟩ := Prod.mk.inj h
        split at h
        · obtain ⟨rfl, rfl⟩ := Prod.mk.inj (Except.ok.inj h)
          exact ⟨by omega, rfl⟩
        · obtain ⟨data, hdata, -⟩ := bind_eq_ok.mp h
          exact absurd ⟨data, hdata⟩ hread
      · intro n hn
        obtain ⟨data, hdata, -⟩ := (hiff n).mpr hn
        exact absurd ⟨data, hdata⟩ hread
  · refine Supplies.suppliedIff ⟨hkept, ?_⟩ ?_
    · intro s off buf n window t hs havail h
      subst hs
      rw [exec_readAt codecs hinode hkind, if_pos (by omega)] at h
      obtain ⟨rfl, rfl⟩ := Prod.mk.inj (Except.ok.inj (Prod.mk.inj h).1)
      exact ⟨by omega, rfl⟩
    · intro n hn
      have hle := pagesHold_le codecs hn
      omega

end Cramfs

namespace Member

variable {ρ : Type} (codecs : Codecs ρ)

/-- The data that can be read of a file is as long as its size: the extents of UDF add up
to it, the pages of cramfs and the blocks of zisofs inflate to their shares. -/
def StoredWhole : (member : Member) → member.Volume → NodeId → Prop
  | iso zisofs, s, node => zisofs = true → ∀ inode zi, s.table.inode node = .ok inode →
      inode.kind ≠ .directory → inode.zisofs = some zi →
        Iso9660.ZisofsWhole codecs s.vol inode zi
  | udf, u, node => ∀ inode, u.table.inode node = .ok inode → inode.kind ≠ .directory →
      inode.data.Holds inode.size
  | cramfs, c, node => ∀ inode, Cramfs.parseInode c.src node = .ok inode →
      Cramfs.kind inode.mode ≠ .directory → Cramfs.PagesWhole codecs c.src inode
  | squashfs, _, _ => True
  | erofs, _, _ => True
  | romfs, _, _ => True
  | cpio, _, _ => True

theorem suppliedIff_iso (zisofs : Bool) {vol : Iso9660.Volume} (hvol : vol.Bounded)
    {iso : Iso9660} (hiso : Iso9660.Opened vol iso) {node : NodeId} {inode : Iso9660.Inode}
    (hfound : iso.table.inode node = .ok inode) :
    SuppliedIff (Iso9660.frontend zisofs codecs)
      (fun iso => Iso9660.Opened vol iso ∧ iso.table.inode node = .ok inode) node
      ((inode.zisofs.map RockRidge.Zisofs.uncompressedSize).getD inode.size)
      ((Member.iso zisofs).StoredWhole codecs iso node) := by
  have hinode := hiso.nodes.inode hfound
  have hsame : ∀ inode', iso.table.inode node = .ok inode' → inode' = inode :=
    fun inode' h => Except.ok.inj (h.symm.trans hfound)
  have hkept := fun off buf => (@Iso9660.keeps_inode _ codecs zisofs vol node inode).readAt node off buf
  have hfind : ∀ s, Iso9660.Opened vol s ∧ s.table.inode node = .ok inode →
      exec (Iso9660.inode node) s = (.ok inode, s) := fun s hs => Prod.ext hs.2 rfl
  by_cases hkind : inode.kind = .directory
  · refine suppliedIff_of_refused hkept ?_ ?_
    · intro s off buf hs
      refine ⟨.err .isDirectory, s, ?_⟩
      show exec (Iso9660.readAt zisofs codecs node off buf) s = _
      unfold Iso9660.readAt
      rw [exec_bind_of_ok (hfind s hs), if_pos hkind]
      rfl
    · intro _ inode' zi h hne
      exact absurd (hsame inode' h ▸ hkind) hne
  cases hzi : inode.zisofs with
  | none =>
    refine Iso9660.suppliedIff_plain codecs hinode hzi ?_
    intro _ inode' zi h _ hzi'
    rw [hsame inode' h, hzi] at hzi'
    cases hzi'
  | some zi =>
    cases zisofs with
    | false =>
      refine suppliedIff_of_refused hkept ?_ fun h => absurd h Bool.false_ne_true
      intro s off buf hs
      refine ⟨.err (.unsupported "zisofs-compressed file: enable the `zisofs` feature"), s, ?_⟩
      show exec (Iso9660.readAt false codecs node off buf) s = _
      unfold Iso9660.readAt
      rw [exec_bind_of_ok (hfind s hs), if_neg hkind, hzi]
      rfl
    | true =>
      refine (Iso9660.suppliedIff_zisofs codecs hvol hinode hkind hzi).congr ?_
      constructor
      · intro hwhole _ inode' zi' h _ hzi'
        obtain rfl := hsame inode' h
        obtain rfl := Option.some.inj (hzi.symm.trans hzi')
        rw [hiso.vol_eq]
        exact hwhole
      · intro h
        rw [← hiso.vol_eq]
        exact h rfl inode zi hfound hkind hzi

theorem suppliedIff_udf {vol : Udf.Volume} {u : Udf} (hu : Udf.Opened vol u) {node : NodeId}
    {inode : Udf.UdfInode} (hfound : u.table.inode node = .ok inode) :
    SuppliedIff Udf.frontend (fun u => Udf.Opened vol u ∧ u.table.inode node = .ok inode) node
      inode.size (Member.udf.StoredWhole codecs u node) := by
  have hsame : ∀ inode', u.table.inode node = .ok inode' → inode' = inode :=
    fun inode' h => Except.ok.inj (h.symm.trans hfound)
  by_cases hkind : inode.kind = .directory
  · refine suppliedIff_of_refused ?_ ?_ ?_
    · exact fun off buf => (Udf.keeps_inode vol node inode).readAt node off buf
    · intro s off buf hs
      have hread : exec (Udf.frontend.readAt node off buf) s =
          exec (if inode.kind = .directory then throw (.err .isDirectory)
            else if off ≥ inode.size then return (0, buf)
            else do
              let u ← get
              let data ← (Udf.readData u.vol inode.data off (min buf.length (inode.size - off)) :
                Outcome _)
              return (data.length, overwrite buf 0 data) : Method Udf _) s :=
        exec_bind_of_ok (Prod.ext hs.2 rfl)
      refine ⟨.err .isDirectory, s, hread.trans ?_⟩
      rw [if_pos hkind]
      rfl
    · intro inode' h hne
      exact absurd (hsame inode' h ▸ hkind) hne
  · refine (Udf.suppliedIff (hu.nodes.inode hfound) hkind).congr ?_
    constructor
    · intro hholds inode' h _
      obtain rfl := hsame inode' h
      exact hholds
    · intro h
      exact h inode hfound hkind

theorem suppliedIff_cramfs {c : Cramfs} {node : NodeId} {inode : Cramfs.CrInode}
    (hinode : Cramfs.parseInode c.src node = .ok inode) :
    SuppliedIff (Cramfs.frontend codecs) (· = c) node inode.size
      (Member.cramfs.StoredWhole codecs c node) := by
  have hsame : ∀ inode', Cramfs.parseInode c.src node = .ok inode' → inode' = inode :=
    fun inode' h => Except.ok.inj (h.symm.trans hinode)
  by_cases hkind : Cramfs.kind inode.mode = .directory
  · refine suppliedIff_of_refused ?_ ?_ ?_
    · exact fun off buf => (Cramfs.frontend_keeps codecs _).readAt node off buf
    · intro s off buf hs
      subst hs
      refine ⟨.err .isDirectory, s, Prod.ext ?_ rfl⟩
      show s.readAt codecs node off buf = _
      unfold Cramfs.readAt
      rw [hinode, ok_bind, if_pos hkind]
      rfl
    · intro inode' h hne
      exact absurd (hsame inode' h ▸ hkind) hne
  · refine (Cramfs.suppliedIff codecs c hinode hkind).congr ?_
    constructor
    · intro hwhole inode' h _
      obtain rfl := hsame inode' h
      exact hwhole
    · intro h
      exact h inode hinode hkind

/-- Nothing is missing of a file of size 0. -/
theorem wholeIff_zero {σ : Type} (fs : FoldFrontend σ) (s : σ) (node : NodeId) {P : Prop} (hP : P) :
    WholeIff fs s node 0 P := by
  constructor
  · intro content t h
    rw [readLoop] at h
    cases h
    exact iff_of_true rfl hP
  · exact iff_of_true (fun _ _ _ _ _ hoff => absurd hoff (Nat.not_lt_zero _)) hP

/-- Reads of a node before and after its metadata was asked for. -/
theorem wholeIff_of_metadata {readers : Cpio.Readers} {src : Source} {member : Member}
    {s t t' : member.Volume} (hmount : mount codecs readers src member = .ok s)
    (hst : member.Runs codecs s t) {verifier : Verifier} {node : NodeId} {md : Metadata}
    (hmd : exec ((frontend codecs verifier member).metadata node) t = (.ok md, t')) :
    WholeIff (frontend codecs verifier member) t node md.size (member.StoredWhole codecs t node) ∧
      WholeIff (frontend codecs verifier member) t' node md.size
        (member.StoredWhole codecs t node) := by
  cases member with
  | iso zisofs =>
    obtain ⟨hopened, -, hvol⟩ := Iso9660.mount_opened hmount
    have ht := hst.keeps (fun _ => Iso9660.frontend_keeps_opened _) hopened
    obtain ⟨inode, u, hinode, h⟩ := exec_bind_eq_ok.mp hmd
    obtain ⟨hfound, rfl⟩ := Prod.mk.inj hinode
    cases h
    have hwhole := (suppliedIff_iso codecs zisofs hvol ht hfound).wholeIff ⟨ht, hfound⟩
    exact ⟨hwhole, hwhole⟩
  | udf =>
    have ht := hst.keeps (fun _ => Udf.frontend_keeps_opened _) (Udf.mount_opened hmount)
    obtain ⟨inode, u, hinode, h⟩ := exec_bind_eq_ok.mp hmd
    obtain ⟨hfound, rfl⟩ := Prod.mk.inj hinode
    cases h
    have hwhole := (suppliedIff_udf codecs ht hfound).wholeIff ⟨ht, hfound⟩
    exact ⟨hwhole, hwhole⟩
  | squashfs =>
    have ht := hst.keeps (fun _ => SquashFs.frontend_keeps_opened _) (SquashFs.mount_opened hmount)
    obtain ⟨inode, u, hinode, h⟩ := exec_bind_eq_ok.mp hmd
    obtain ⟨hfound, rfl⟩ := Prod.mk.inj hinode
    cases h
    have hwhole := (SquashFs.suppliedIff codecs (P := True) trivial).wholeIff ⟨ht, hfound⟩
    exact ⟨hwhole, hwhole⟩
  | erofs =>
    have ht := hst.keeps (Erofs.cacheKept_holds codecs _).frontend (Erofs.mount_holds hmount)
    obtain ⟨inode, u, hinode, ht', h⟩ := Erofs.exec_parsed_eq_ok ht hmd
    cases h
    exact ⟨(Erofs.suppliedIff codecs trivial).wholeIff ⟨ht, hinode⟩,
      (Erofs.suppliedIff codecs trivial).wholeIff ⟨ht', hinode⟩⟩
  | cramfs =>
    obtain ⟨hvalue, rfl⟩ := Prod.mk.inj hmd
    obtain ⟨inode, hinode, h⟩ := bind_eq_ok.mp hvalue
    obtain rfl := Except.ok.inj h
    have hwhole := (suppliedIff_cramfs codecs hinode).wholeIff rfl
    exact ⟨hwhole, hwhole⟩
  | romfs =>
    obtain ⟨hvalue, rfl⟩ := Prod.mk.inj hmd
    obtain ⟨⟨at_, header⟩, hheader, h⟩ := bind_eq_ok.mp hvalue
    obtain rfl := Except.ok.inj h
    have hwhole := (Romfs.suppliedIff t hheader (P := True) trivial).wholeIff rfl
    exact ⟨hwhole, hwhole⟩
  | cpio =>
    obtain ⟨hvalue, rfl⟩ := Prod.mk.inj hmd
    obtain ⟨n, hn, h⟩ := bind_eq_ok.mp hvalue
    obtain rfl := Except.ok.inj h
    dsimp only
    split
    · exact ⟨wholeIff_zero _ _ _ trivial, wholeIff_zero _ _ _ trivial⟩
    · have hwhole := (Cpio.suppliedIff t hn (P := True) trivial).wholeIff rfl
      exact ⟨hwhole, hwhole⟩

/-- A file is never cut short in silence, by `read_path` or by a read inside it, exactly
when its data is stored whole. -/
theorem never_cut_iff_storedWhole (readers : Cpio.Readers) (src : Source) (member : Member)
    {s t : member.Volume} (hmount : mount codecs readers src member = .ok s)
    (hst : member.Runs codecs s t) (verifier : Verifier) :
    (∀ path content t',
      exec (readPath (frontend codecs verifier member) path) t = (.ok content, t') →
        ∃ node u md u', exec (resolve (frontend codecs verifier member) path) t = (.ok node, u) ∧
          exec (metadataPath (frontend codecs verifier member) path) t = (.ok md, u') ∧
          (content.length = md.size ↔ member.StoredWhole codecs u node)) ∧
    ∀ node md t', exec ((frontend codecs verifier member).metadata node) t = (.ok md, t') →
      ((∀ off buf n window u, off < md.size → buf ≠ [] →
        exec ((frontend codecs verifier member).readAt node off buf) t = (.ok (n, window), u) →
          min buf.length (md.size - off) ≤ n) ↔ member.StoredWhole codecs t node) := by
  constructor
  · intro path content t' h
    obtain ⟨node, md, u, u', hnode, hmd, -, -, hloop⟩ := readPath_eq_ok h
    have htu : member.Runs codecs t u := reaches_of_preserves
      (resolve_preserves (keeps_reaches (fun v => frontend codecs v member) verifier t) path)
      .refl hnode
    have hwhole := (wholeIff_of_metadata codecs hmount (hst.trans htu) hmd).2
    exact ⟨node, u, md, u', hnode, (metadataPath_eq hnode).trans hmd, hwhole.loop content t' hloop⟩
  · intro node md t' hmd
    exact (wholeIff_of_metadata codecs hmount hst hmd).1.reads

end Member

namespace Cramfs

theorem never_cut_iff_storedWhole_shortPage :
    (∀ off buf n window u, off < 3 → buf ≠ [] →
      exec ((frontend zeroByteZlib).readAt 76 off buf) ⟨shortPage⟩ = (.ok (n, window), u) →
        min buf.length (3 - off) ≤ n) ↔
      Member.cramfs.StoredWhole zeroByteZlib ⟨shortPage⟩ 76 :=
  (Member.never_cut_iff_storedWhole zeroByteZlib Cpio.plainReaders shortPage .cramfs mount_shortPage
    .refl noVerifier).2 76 ⟨.regular, 3, 0o644⟩ ⟨shortPage⟩ (Prod.ext (by decide +kernel) rfl)

/-- The path `a` leads to a file of three bytes, of which one is returned. -/
theorem readPath_shortPage :
    mount shortPage = .ok ⟨shortPage⟩ ∧
      (exec (readPath (frontend zeroByteZlib) [0x61]) ⟨shortPage⟩).1 = .ok [0] ∧
      (exec (metadataPath (frontend zeroByteZlib) [0x61]) ⟨shortPage⟩).1 =
        .ok ⟨.regular, 3, 0o644⟩ := by
  have hlookup : exec ((frontend zeroByteZlib).lookup 64 [0x61]) ⟨shortPage⟩ =
      (.ok (some 76), ⟨shortPage⟩) := Prod.ext (by decide +kernel) rfl
  have hmd : exec ((frontend zeroByteZlib).metadata 76) ⟨shortPage⟩ =
      (.ok ⟨.regular, 3, 0o644⟩, ⟨shortPage⟩) := Prod.ext (by decide +kernel) rfl
  have hresolve : exec (resolve (frontend zeroByteZlib) [0x61]) ⟨shortPage⟩ =
      (.ok 76, ⟨shortPage⟩) := exec_resolve_one rfl (by decide) hlookup hmd (by decide)
  refine ⟨mount_shortPage, ?_, ?_⟩
  · unfold readPath
    rw [exec_bind_of_ok hresolve]
    decide +kernel
  · rw [metadataPath_eq hresolve, hmd]

end Cramfs

end Lamfold
