import Lamfold.IsoListing
import Lamfold.WholeReads

/-!
ISO 9660 files, from the records of a directory to the bytes of a window. The key of a
node is the place of its record, and whatever directory extents lead to that place read
it to one node; so a listed entry stands for the chain of records it was read from, in
every state that follows.
-/
namespace Lamfold.Iso9660

open Effects Bytes Utf8 RockRidge

section Prefixes

variable {vol : Volume} {dirLba : ℕ} {buf : List UInt8} (more : List UInt8)

theorem recordAt_append {pos len : ℕ} {r : List UInt8 × List UInt8}
    (h : recordAt buf pos len = .ok r) : recordAt (buf ++ more) pos len = .ok r := by
  obtain ⟨record, hrecord, h⟩ := bind_eq_ok.mp h
  have hslice := slice_append_left (okOr_eq_ok.mp hrecord) more
  exact bind_eq_ok.mpr ⟨record, okOr_eq_ok.mpr hslice, h⟩

theorem firstFi_append {pos : ℕ} {fi : List UInt8} (h : firstFi buf pos = .ok fi) :
    firstFi (buf ++ more) pos = .ok fi := by
  obtain ⟨len, hlen, h⟩ := bind_eq_ok.mp h
  obtain ⟨r, hr, h⟩ := bind_eq_ok.mp h
  have hbyte := okOr_eq_ok.mp hlen
  have hin := (List.getElem?_eq_some_iff.mp hbyte).1
  refine bind_eq_ok.mpr ⟨len, okOr_eq_ok.mpr ?_, bind_eq_ok.mpr ⟨r, recordAt_append more hr, h⟩⟩
  rwa [List.getElem?_append_left hin]

theorem addExtent_append {fi : List UInt8} {isDir : Bool} {lba size : ℕ} {inode inode' : Inode}
    (h : addExtent buf fi isDir lba size inode = .ok inode') :
    addExtent (buf ++ more) fi isDir lba size inode = .ok inode' := by
  obtain ⟨hfile, h⟩ := ite_error_eq_ok.mp h
  obtain ⟨first, hfirst, h⟩ := bind_eq_ok.mp h
  exact ite_error_eq_ok.mpr ⟨hfile, bind_eq_ok.mpr ⟨first, firstFi_append more hfirst, h⟩⟩

theorem readRecord_append {pos : ℕ} {record fi : List UInt8} {pending : Option (Str × Inode)}
    {r : List (Str × Inode) × Option (Str × Inode)}
    (h : readRecord vol dirLba buf pos record fi pending = .ok r) :
    readRecord vol dirLba (buf ++ more) pos record fi pending = .ok r := by
  unfold readRecord at h ⊢
  split at h
  · rename_i hdot
    rwa [if_pos hdot]
  · rename_i hdot
    rw [if_neg hdot]
    obtain ⟨flags, hflags, h⟩ := bind_eq_ok.mp h
    obtain ⟨lba, hlba, h⟩ := bind_eq_ok.mp h
    obtain ⟨size, hsize, h⟩ := bind_eq_ok.mp h
    refine bind_eq_ok.mpr ⟨flags, hflags, bind_eq_ok.mpr ⟨lba, hlba, bind_eq_ok.mpr ⟨size, hsize, ?_⟩⟩⟩
    cases pending with
    | some first =>
      obtain ⟨inode, hinode, h⟩ := bind_eq_ok.mp h
      exact bind_eq_ok.mpr ⟨inode, addExtent_append more hinode, h⟩
    | none => exact h

/-- What a directory lists stays at the front when more bytes follow. -/
theorem entriesFrom_append {pos : ℕ} {pending : Option (Str × Inode)}
    {entries entries' : List (Str × Inode)}
    (h : entriesFrom vol dirLba buf pending pos = .ok entries)
    (h' : entriesFrom vol dirLba (buf ++ more) pending pos = .ok entries') :
    entries <+: entries' := by
  fun_induction entriesFrom vol dirLba buf pending pos generalizing entries entries' with
  | case1 pending pos hpos ihPadding ihRecord =>
    have hpos' : pos < (buf ++ more).length := by
      rw [List.length_append]
      omega
    obtain ⟨len, hlen, h⟩ := bind_eq_ok.mp h
    have hbyte := unwrap_eq_ok.mp hlen
    rw [entriesFrom, if_pos hpos', List.getElem?_append_left hpos, hbyte, unwrap, lift_ok_bind] at h'
    split at h
    · rename_i hzero
      rw [dif_pos hzero] at h'
      dsimp only at h h'
      split at h
      · rename_i hend
        rw [finishScan_eq_ok h]
        exact List.nil_prefix
      · rename_i hnext
        rw [if_neg hnext] at h'
        exact ihPadding hnext h h'
    · rename_i hzero
      rw [dif_neg hzero] at h'
      obtain ⟨⟨record, fi⟩, hrecord, h⟩ := bind_eq_ok.mp h
      obtain ⟨⟨found, pending₁⟩, hread, h⟩ := bind_eq_ok.mp h
      obtain ⟨rest, hrest, h⟩ := bind_eq_ok.mp h
      obtain rfl := Except.ok.inj h
      rw [recordAt_append more hrecord, lift_ok_bind] at h'
      dsimp only at h' hread
      rw [readRecord_append more hread, ok_bind] at h'
      obtain ⟨rest', hrest', h'⟩ := bind_eq_ok.mp h'
      obtain rfl := Except.ok.inj h'
      exact (List.prefix_append_right_inj found).mpr (ihRecord len hzero pending₁ hrest hrest')
  | case2 pending pos hpos =>
    rw [finishScan_eq_ok h]
    exact List.nil_prefix

end Prefixes

section Places

variable {vol : Volume} {inode inode' : Inode}

theorem readDirExtent_eq_ok {dir : Inode} {buf : List UInt8}
    (h : readDirExtent vol.src vol.blockSize dir = .ok buf) :
    slice vol.src.content (dir.lba * vol.blockSize) dir.size = some buf := by
  obtain ⟨len, hlen, h⟩ := bind_eq_ok.mp h
  obtain ⟨off, hoff, h⟩ := bind_eq_ok.mp h
  obtain ⟨-, rfl⟩ := checkedFullReadLen_eq_ok.mp hlen
  obtain ⟨-, rfl⟩ := fits_eq_ok.mp hoff
  exact Source.readAt_eq_ok.mp h

/-- Of two extents at one place, the bytes of the smaller one come first in the other. -/
theorem slice_longer {xs ys ys' : List UInt8} {off n n' : ℕ} (h : slice xs off n = some ys)
    (h' : slice xs off n' = some ys') (hle : n ≤ n') : ∃ more, ys' = ys ++ more := by
  obtain ⟨-, rfl⟩ := slice_eq_some.mp h
  obtain ⟨-, rfl⟩ := slice_eq_some.mp h'
  have hsplit : n' = n + (n' - n) := by omega
  exact ⟨_, hsplit ▸ List.take_add ..⟩

/-- The nodes of two directories at one place have different keys. -/
theorem listed_unique_of_le {dir dir' : Inode} {entries entries' : List (Str × Inode)}
    {entry entry' : Str × Inode} (h : forEachEntry vol dir = .ok entries)
    (h' : forEachEntry vol dir' = .ok entries') (hlba : dir.lba = dir'.lba)
    (hle : dir.size ≤ dir'.size) (hentry : entry ∈ entries) (hentry' : entry' ∈ entries')
    (hkey : entry.2.key = entry'.2.key) : entry = entry' := by
  have hnodup := (forEachEntry_keys h').1
  obtain ⟨buf, hbuf, h⟩ := bind_eq_ok.mp h
  obtain ⟨buf', hbuf', h'⟩ := bind_eq_ok.mp h'
  have hslice := readDirExtent_eq_ok hbuf
  rw [hlba] at hslice h
  obtain ⟨more, rfl⟩ := slice_longer hslice (readDirExtent_eq_ok hbuf') hle
  have hmem := (entriesFrom_append more h h').mem hentry
  exact List.inj_on_of_nodup_map hnodup hmem hentry' hkey

theorem lba_of_listed {dir : Inode} {entries : List (Str × Inode)} {entry : Str × Inode}
    (h : forEachEntry vol dir = .ok entries) (hentry : entry ∈ entries) :
    entry.2.key.1 = dir.lba := by
  obtain ⟨buf, -, h⟩ := bind_eq_ok.mp h
  exact (entriesFrom_inOrder (by simp [Behind]) h).block entry hentry

/-- Whatever directories list them, nodes of one key are the same. -/
theorem Listed.unique (h : Listed vol inode) (h' : Listed vol inode')
    (hkey : inode.key = inode'.key) : inode = inode' := by
  obtain ⟨dir, entries, hentries, name, hmem⟩ := h
  obtain ⟨dir', entries', hentries', name', hmem'⟩ := h'
  have hlba : dir.lba = dir'.lba := by
    have hfirst := lba_of_listed hentries hmem
    have hsecond := lba_of_listed hentries' hmem'
    dsimp only at hfirst hsecond
    rw [← hfirst, hkey, hsecond]
  rcases Nat.le_total dir.size dir'.size with hle | hle
  · have hsame := listed_unique_of_le hentries hentries' hlba hle hmem hmem' hkey
    exact congrArg Prod.snd hsame
  · have hsame := listed_unique_of_le hentries' hentries hlba.symm hle hmem' hmem hkey.symm
    exact (congrArg Prod.snd hsame).symm

theorem Listed.key_ne (h : Listed vol inode) : inode.key ≠ rootKey := by
  obtain ⟨dir, entries, hentries, name, hmem⟩ := h
  intro hroot
  exact (forEachEntry_keys hentries).2 (List.mem_map.mpr ⟨_, hmem, hroot⟩)

/-- The node of a place: the one that some directory lists there, or the root. -/
noncomputable def nodeAt (vol : Volume) (root : Inode) (key : ℕ × ℕ) : Outcome Inode :=
  open Classical in
  if h : ∃ inode, Listed vol inode ∧ inode.key = key then .ok h.choose
  else if key = rootKey then .ok root
  else fail .notFound

theorem Listed.nodeAt_eq (h : Listed vol inode) (root : Inode) :
    nodeAt vol root inode.key = .ok inode := by
  have hex : ∃ found, Listed vol found ∧ found.key = inode.key := ⟨inode, h, rfl⟩
  have hsame : hex.choose = inode := hex.choose_spec.1.unique h hex.choose_spec.2
  unfold nodeAt
  rw [dif_pos hex, hsame]

theorem nodeAt_root (vol : Volume) (root : Inode) : nodeAt vol root rootKey = .ok root := by
  have hno : ¬∃ found, Listed vol found ∧ found.key = rootKey := by
    rintro ⟨found, hfound, hkey⟩
    exact hfound.key_ne hkey
  unfold nodeAt
  rw [dif_neg hno, if_pos rfl]

end Places

/-- The roots that the descriptors gave so far have the key of the root. -/
structure Vds.Rooted (found : Vds) : Prop where
  primary : ∀ p, found.primary = some p → p.root.key = rootKey
  jolietRoot : ∀ root, found.jolietRoot = some root → root.key = rootKey

theorem rootRecord_key {vd : List UInt8} {root : Inode} (h : rootRecord vd = .ok root) :
    root.key = rootKey := by
  obtain ⟨rdr, -, h⟩ := bind_eq_ok.mp h
  obtain ⟨lba, -, h⟩ := bind_eq_ok.mp h
  obtain ⟨size, -, h⟩ := bind_eq_ok.mp h
  obtain rfl := Except.ok.inj h
  rfl

theorem readVd_rooted {vd : List UInt8} {type : UInt8} {found found' : Vds} (hfound : found.Rooted)
    (h : readVd vd type found = .ok found') : found'.Rooted := by
  rcases readVd_cases h with ⟨primary, hprimary, rfl⟩ | ⟨lba, -, rfl⟩ | ⟨root, hroot, rfl⟩ | rfl
  · refine ⟨?_, hfound.jolietRoot⟩
    intro p hp
    obtain rfl := Option.some.inj hp
    exact rootRecord_key (primaryVd_eq_ok hprimary).2
  · exact ⟨hfound.primary, hfound.jolietRoot⟩
  · refine ⟨hfound.primary, ?_⟩
    intro root' hroot'
    obtain rfl := Option.some.inj hroot'
    exact rootRecord_key hroot
  · exact hfound

theorem openVolume_root_key {src : Source} {vol : Volume} {root : Inode}
    (h : openVolume src = .ok (vol, root)) : root.key = rootKey := by
  obtain ⟨found, hfound, h⟩ := bind_eq_ok.mp h
  obtain ⟨primary, hprimary, h⟩ := bind_eq_ok.mp h
  obtain ⟨susp, -, h⟩ := bind_eq_ok.mp h
  have hrooted := scanVds_keeps readVd_rooted ⟨by simp, by simp⟩ hfound
  have hprimary := hrooted.primary primary (okOr_eq_ok.mp hprimary)
  split at h
  · obtain ⟨-, rfl⟩ := Prod.mk.inj (Except.ok.inj h)
    exact hprimary
  · rename_i joliet hjoliet
    obtain ⟨-, rfl⟩ := Prod.mk.inj (Except.ok.inj h)
    exact hrooted.jolietRoot _ hjoliet
  · obtain ⟨-, rfl⟩ := Prod.mk.inj (Except.ok.inj h)
    exact hprimary

section Runs

variable {ρ : Type} {zisofs : Bool} {codecs : Codecs ρ}

/-- Each key stands for the node of its place. -/
structure Placed (vol : Volume) (root : Inode) (iso : Iso9660) : Prop where
  vol_eq : iso.vol = vol
  nodes : iso.table.Keyed (nodeAt vol root)

theorem frontend_keeps_placed (vol : Volume) (root : Inode) :
    (frontend zisofs codecs).Keeps (Placed vol root) := by
  refine frontend_keeps_listed (P := fun vol t => t.Keyed (nodeAt vol root)) ?_ ?_ ?_
  · intro vol t inode hlisted ht
    exact ht.intern (hlisted.nodeAt_eq root)
  · intro iso hiso
    exact hiso.vol_eq ▸ hiso.nodes
  · intro t iso ht hiso
    exact ⟨hiso.vol_eq, hiso.vol_eq ▸ ht⟩

theorem mount_placed {src : Source} {iso : Iso9660} (h : mount src = .ok iso) :
    ∃ root, Placed iso.vol root iso := by
  obtain ⟨⟨vol, root⟩, hopen, h⟩ := bind_eq_ok.mp h
  obtain rfl := Except.ok.inj h
  have hkey := openVolume_root_key hopen
  have hroot : nodeAt vol root root.key = .ok root := by
    rw [hkey]
    exact nodeAt_root vol root
  exact ⟨root, rfl, (InternTable.keyed_empty _).intern hroot⟩

/-- A listed node has the number of its key. -/
theorem Placed.inode {vol : Volume} {root : Inode} {iso : Iso9660} (h : Placed vol root iso)
    {inode : Inode} (hlisted : Listed vol inode) {node : NodeId}
    (hmem : (inode.key, node) ∈ iso.table.byKey) : iso.table.inode node = .ok inode := by
  obtain ⟨found, hfound, hplace⟩ := h.nodes inode.key node hmem
  obtain rfl := Except.ok.inj (hplace.symm.trans (hlisted.nodeAt_eq root))
  exact InternTable.inode_eq_ok.mpr hfound

/-- A directory that is read to entries is listed, and each entry stands for its node. -/
theorem readDir_listed {src : Source} {s t : Iso9660} (hmount : mount src = .ok s)
    (hrun : Reaches (fun _ : Unit => frontend zisofs codecs) s t) {dir : NodeId} {inode : Inode}
    (hdir : t.table.inode dir = .ok inode) (hkind : inode.kind = .directory)
    {entries : List (Str × Inode)} (hentries : forEachEntry t.vol inode = .ok entries) :
    ∃ es u, exec ((frontend zisofs codecs).readDir dir) t = (.ok es, u) ∧
      List.Forall₂ (fun entry e => e.name = entry.1 ∧ u.table.inode e.node = .ok entry.2)
        entries es := by
  obtain ⟨root, hplaced⟩ := mount_placed hmount
  have ht := hrun.keeps (fun _ => frontend_keeps_placed s.vol root) hplaced
  have hrecords : nodeTable.records t.vol inode = .ok entries := by
    refine Eq.trans ?_ hentries
    exact if_neg (not_not.mpr hkind)
  have hfound : (nodeTable.table t).inode dir >>= nodeTable.records (nodeTable.vol t) =
      .ok entries := bind_eq_ok.mpr ⟨inode, hdir, hrecords⟩
  have hexec := nodeTable.exec_readDir dir t
  rw [hfound] at hexec
  have hparse : ∀ child, ∃ found, nodeTable.parse t.vol child = .ok found := fun child => ⟨child, rfl⟩
  obtain ⟨es, hes⟩ :=
    InternTable.internAll_ok nodeTable.key nodeTable.kind hparse entries t.table
  have hok : exec (nodeTable.readDir dir) t = (.ok es, (exec (nodeTable.readDir dir) t).2) := by
    refine Prod.ext ?_ rfl
    rw [hexec]
    exact hes
  obtain ⟨inode', found, hinode', hrecords', hall⟩ := nodeTable.readDir_entries hok
  obtain rfl := Except.ok.inj (hdir.symm.trans hinode')
  obtain rfl := Except.ok.inj (hrecords.symm.trans hrecords')
  have hu := (@frontend_keeps_placed _ zisofs codecs s.vol root).readDir dir t ht
  have hlisted : ∀ entry ∈ entries, Listed s.vol entry.2 := by
    intro entry hentry
    rw [← ht.vol_eq]
    exact ⟨inode, entries, hentries, entry.1, hentry⟩
  refine ⟨es, (exec (nodeTable.readDir dir) t).2, ?_, ?_⟩
  · exact (congrArg (fun x => exec x t) (readDir_eq dir)).trans hok
  · rw [← readDir_eq] at hall ⊢
    refine ((List.forall₂_and_left _ _).mpr ⟨hlisted, hall⟩).imp ?_
    rintro entry e ⟨hlist, hname, hmem⟩
    exact ⟨hname, hu.inode hlist hmem⟩

/-- Byte `i` of an extent, when the source has it. -/
def extentByte (vol : Volume) (e : ℕ × ℕ) (i : ℕ) : Option UInt8 :=
  vol.src.content[e.1 * vol.blockSize + i]?

/-- The bytes of the extents of a file, one after another. -/
def content (vol : Volume) (inode : Inode) : List (Option UInt8) :=
  extentBytes Prod.snd (extentByte vol) inode.extents

theorem sourceError_readAt {src : Source} {offset n : ℕ} :
    RaisesOnly (fun e => ∃ what, e = .io what) (src.readAt offset n) :=
  .ite (fun _ => .fail ⟨_, rfl⟩) fun _ => .okOr ⟨_, rfl⟩

/-- A read of a file fails with an error of the source, or gives a window of its content. -/
theorem readPlain_content {vol : Volume} (hvol : vol.Bounded) {inode : Inode}
    (hinode : inode.Bounded) (off : ℕ) (buf : List UInt8) :
    (∃ what, readPlain vol inode off buf = fail (.io what)) ∨
      ∃ n window, readPlain vol inode off buf = .ok (n, window) ∧
        Writes (content vol inode) off buf n window := by
  have hanswered := @answered_readPlain vol hvol inode hinode off buf
  have hlen : (content vol inode).length = inode.size := by
    rw [content, extentBytes_length, hinode.size_eq]
  have hraises : RaisesOnly (fun e => ∃ what, e = .io what) (readPlain vol inode off buf) := by
    refine RaisesOnly.ite (fun _ => .ok _) fun _ => ?_
    refine RaisesOnly.bind (raises_readExtents ?_) fun data _ => .ok _
    intro e intra n
    refine RaisesOnly.bind .fits fun start _ => ?_
    exact RaisesOnly.bind .fits fun at_ _ => sourceError_readAt
  cases hread : readPlain vol inode off buf with
  | error fault =>
    rw [hread] at hanswered hraises
    cases fault with
    | err e =>
      obtain ⟨what, rfl⟩ := hraises e rfl
      exact .inl ⟨what, rfl⟩
    | panic => exact absurd hanswered id
    | hang => exact absurd hanswered id
  | ok r =>
    right
    unfold readPlain at hread
    split at hread
    · rename_i hpast
      obtain rfl := Except.ok.inj hread
      exact ⟨0, buf, rfl, .past (hlen.trans_le hpast) buf⟩
    · rename_i hin
      obtain ⟨data, hdata, hread⟩ := bind_eq_ok.mp hread
      obtain rfl := Except.ok.inj hread
      refine ⟨data.length, _, rfl, .of_data ?_⟩
      have hwindow := @readExtents_content _ Prod.snd _ (extentByte vol) ?_ _ _ _ _ _ _
        (.inl (Nat.zero_le _)) hdata
      · rw [List.map_nil, List.nil_append, List.length_nil, Nat.add_zero, Nat.sub_zero,
          Nat.sub_zero] at hwindow
        change data.map some = ((content vol inode).drop off).take _ at hwindow
        rw [hwindow, ← hlen, ← List.length_drop, ← List.take_take, List.take_length]
      · intro e intra n bytes h
        obtain ⟨start, hstart, h⟩ := bind_eq_ok.mp h
        obtain ⟨at_, hat, h⟩ := bind_eq_ok.mp h
        obtain ⟨-, rfl⟩ := fits_eq_ok.mp hstart
        obtain ⟨-, rfl⟩ := fits_eq_ok.mp hat
        refine bytesOf_of_slice ?_ (Source.readAt_eq_ok.mp h)
        intro k _
        rw [extentByte, Nat.add_assoc]

/-- The node has the size of the file, and its windows are windows of its content. -/
structure ReadsAsOne (fs : FoldFrontend Iso9660) (inode : Inode) (node : NodeId) (iso : Iso9660) :
    Prop where
  metadata : (exec (fs.metadata node) iso).1 = .ok ⟨inode.kind, inode.size, 0⟩
  readAt : inode.kind ≠ .directory → ∀ off buf,
    (∃ what, (exec (fs.readAt node off buf) iso).1 = fail (.io what)) ∨
      ∃ n window, (exec (fs.readAt node off buf) iso).1 = .ok (n, window) ∧
        Writes (content iso.vol inode) off buf n window

theorem readsAsOne {vol : Volume} (hvol : vol.Bounded) {iso : Iso9660} (hiso : Opened vol iso)
    {inode : Inode} {node : NodeId} (hnode : iso.table.inode node = .ok inode)
    (hzi : inode.zisofs = none) : ReadsAsOne (frontend zisofs codecs) inode node iso := by
  have hfound : exec (Iso9660.inode node) iso = (.ok inode, iso) := Prod.ext hnode rfl
  rw [← hiso.vol_eq] at hvol
  constructor
  · change (exec (Iso9660.metadata node) iso).1 = _
    rw [Iso9660.metadata, exec_bind_of_ok hfound, hzi]
    rfl
  · intro hkind off buf
    have hread : (exec ((frontend zisofs codecs).readAt node off buf) iso).1 =
        readPlain iso.vol inode off buf := by
      change (exec (Iso9660.readAt zisofs codecs node off buf) iso).1 = _
      rw [Iso9660.readAt, exec_bind_of_ok hfound, if_neg hkind, exec_bind, exec_get, hzi]
      rfl
    rw [hread]
    exact readPlain_content hvol (hiso.nodes.inode hnode) off buf

theorem readDirExtent_of_slice {vol : Volume} {dir : Inode} {buf : List UInt8}
    (hcap : dir.size ≤ maxBootFileBytes)
    (hextent : slice vol.src.content (dir.lba * vol.blockSize) dir.size = some buf) :
    readDirExtent vol.src vol.blockSize dir = .ok buf := by
  have hin := (slice_eq_some.mp hextent).1
  have hlt := vol.src.length_lt
  have hlen : checkedFullReadLen dir.size = .ok dir.size := checkedFullReadLen_eq_ok.mpr ⟨hcap, rfl⟩
  have hoff : u64 (dir.lba * vol.blockSize) = .ok (dir.lba * vol.blockSize) :=
    fits_eq_ok.mpr ⟨by omega, rfl⟩
  unfold readDirExtent
  rw [hlen, lift_ok_bind, hoff, lift_ok_bind]
  exact Source.readAt_eq_ok.mpr hextent

/-- The entry has its name, and in every state that follows its node is the file. -/
def StandsFor (fs : FoldFrontend Iso9660) (u : Iso9660) (entry : Str × Inode) (e : DirEntry) : Prop :=
  e.name = entry.1 ∧ ∀ v, Reaches (fun _ : Unit => fs) u v →
    v.table.inode e.node = .ok entry.2 ∧
      (entry.2.zisofs = none → ReadsAsOne fs entry.2 e.node v)

/-- A directory that is not read to entries is refused. -/
theorem readDir_refused {src : Source} {s t : Iso9660} (hmount : mount src = .ok s)
    (hrun : Reaches (fun _ : Unit => frontend zisofs codecs) s t) {dir : NodeId} {inode : Inode}
    (hdir : t.table.inode dir = .ok inode)
    (hno : ∀ found, forEachEntry t.vol inode ≠ .ok found) :
    ∃ e, (exec ((frontend zisofs codecs).readDir dir) t).1 = fail e := by
  have hanswered : Answered (exec ((frontend zisofs codecs).readDir dir) t).1 :=
    ((answers_all zisofs codecs src).2 s t hmount hrun).1 (.readDir dir)
  rcases hexec : exec ((frontend zisofs codecs).readDir dir) t with ⟨fault | es, u⟩
  · rw [hexec] at hanswered
    obtain ⟨e, rfl⟩ := answered_error.mp hanswered
    exact ⟨e, rfl⟩
  · have hlist : exec (nodeTable.readDir dir) t = (.ok es, u) :=
      (congrArg (fun x => exec x t) (readDir_eq dir)).symm.trans hexec
    obtain ⟨inode', found, hinode', hrecords, -⟩ := nodeTable.readDir_entries hlist
    obtain rfl := Except.ok.inj (hdir.symm.trans hinode')
    obtain ⟨-, hrecords⟩ := ite_error_eq_ok.mp hrecords
    exact absurd hrecords (hno found)

/-- A directory over the cap is refused. -/
theorem readDir_tooLarge {t : Iso9660} {dir : NodeId} {inode : Inode}
    (hdir : t.table.inode dir = .ok inode) (hkind : inode.kind = .directory)
    (hcap : maxBootFileBytes < inode.size) :
    (exec ((frontend zisofs codecs).readDir dir) t).1 =
      fail (.fileTooLarge inode.size maxBootFileBytes) := by
  have hlen : checkedFullReadLen inode.size = fail (.fileTooLarge inode.size maxBootFileBytes) :=
    checkedLen_of_lt hcap
  have hrecords : nodeTable.records t.vol inode =
      fail (.fileTooLarge inode.size maxBootFileBytes) := by
    refine (if_neg (not_not.mpr hkind)).trans ?_
    rw [forEachEntry, readDirExtent, hlen]
    rfl
  have hfound : (nodeTable.table t).inode dir >>= nodeTable.records (nodeTable.vol t) =
      fail (.fileTooLarge inode.size maxBootFileBytes) := by
    change t.table.inode dir >>= nodeTable.records t.vol = _
    rw [hdir, ok_bind, hrecords]
  have hexec := nodeTable.exec_readDir dir t
  rw [hfound] at hexec
  exact (congrArg (fun x => (exec x t).1) (readDir_eq dir)).trans (congrArg Prod.fst hexec)

/-- In any state that a mounted volume can reach: a directory extent, no larger than the
cap on reads, in which files are recorded as chains, has an entry for each chain, in
order and under the name of its first record, unless a first record cannot be read; in
every state that follows, the node of an entry has the extents of its chain, and windows
of an uncompressed file are windows of their data one after another. An extent in which
a file breaks is refused, and so is one over the cap. -/
theorem readDir_chains {src : Source} {s t : Iso9660} (hmount : mount src = .ok s)
    (hrun : Reaches (fun _ : Unit => frontend zisofs codecs) s t) {dir : NodeId} {inode : Inode}
    (hdir : t.table.inode dir = .ok inode) (hkind : inode.kind = .directory) :
    (inode.size ≤ maxBootFileBytes → ∀ buf,
      slice t.vol.src.content (inode.lba * t.vol.blockSize) inode.size = some buf →
      ∀ chains : List (List (ℕ × Record)), (∀ c ∈ chains, IsChain c) →
        (Laid t.vol.blockSize 0 buf chains.flatten → (∀ c ∈ chains, c.length ≤ maxExtents) →
          (∀ entries, List.Forall₂ (ChainEntry t.vol inode.lba) chains entries →
            ∃ es u, exec ((frontend zisofs codecs).readDir dir) t = (.ok es, u) ∧
              List.Forall₂ (StandsFor (frontend zisofs codecs) u) entries es) ∧
          ((∀ entries, ¬List.Forall₂ (ChainEntry t.vol inode.lba) chains entries) →
            ∃ e, (exec ((frontend zisofs codecs).readDir dir) t).1 = fail e)) ∧
        ∀ p ps, Laid t.vol.blockSize 0 buf (chains.flatten ++ p :: ps) → p.2.isDir = false →
          p.2.more = true → BreaksOff p.2.fi ps →
          ∃ e, (exec ((frontend zisofs codecs).readDir dir) t).1 = fail e) ∧
      (maxBootFileBytes < inode.size →
        (exec ((frontend zisofs codecs).readDir dir) t).1 =
          fail (.fileTooLarge inode.size maxBootFileBytes)) := by
  refine ⟨fun hcap buf hextent chains hchains => ?_, readDir_tooLarge hdir hkind⟩
  have hread := readDirExtent_of_slice hcap hextent
  obtain ⟨hopened, -, hvol⟩ := mount_opened hmount
  have ht := hrun.keeps (fun _ => frontend_keeps_opened s.vol) hopened
  refine ⟨?_, ?_⟩
  · intro hlaid hcount
    constructor
    · intro entries hentries
      have hlisted := forEachEntry_chains hread hlaid
        (fun c hc => ⟨hchains c hc, hcount c hc⟩) hentries
      obtain ⟨es, u, hexec, hall⟩ := readDir_listed hmount hrun hdir hkind hlisted
      refine ⟨es, u, hexec, hall.imp ?_⟩
      rintro entry e ⟨hname, hnode⟩
      refine ⟨hname, ?_⟩
      intro v hmore
      have hu : Opened s.vol u := by
        have hkept := (@frontend_keeps_opened _ zisofs codecs s.vol).readDir dir t ht
        rwa [hexec] at hkept
      have hv := hmore.keeps (fun _ => keeps_inode codecs s.vol e.node entry.2) ⟨hu, hnode⟩
      exact ⟨hv.2, readsAsOne hvol hv.1 hv.2⟩
    · intro hunread
      apply readDir_refused hmount hrun hdir
      intro found hfound
      obtain ⟨entries, hentries⟩ := exists_entries hread hlaid hchains hfound
      exact hunread entries hentries
  · intro p ps hlaid hfile hmore hbreaks
    apply readDir_refused hmount hrun hdir
    intro found
    exact forEachEntry_broken hread hlaid hchains hfile hmore hbreaks

end Runs

/-- A primary descriptor with blocks of 2048 bytes, whose root directory is `size` bytes
from block 18 on. -/
def rootDescriptor (size : UInt8) : List UInt8 :=
  [1] ++ standardId ++ List.replicate 122 0 ++ [0, 8] ++ List.replicate 26 0 ++
    [0, 0, 18, 0, 0, 0, 0, 0, 0, 0, size] ++ List.replicate 1881 0

def terminator : List UInt8 := [255] ++ standardId ++ List.replicate 2042 0

theorem rootDescriptor_length (size : UInt8) : (rootDescriptor size).length = vdSize := by
  simp only [rootDescriptor, List.length_append, List.length_replicate]
  rfl

theorem terminator_length : terminator.length = vdSize := by decide +kernel

/-- The two descriptors, with `rest` from block 18 on. -/
def rootVolume (size : UInt8) (rest : List UInt8) : List UInt8 :=
  List.replicate vdRegionOffset 0 ++ (rootDescriptor size ++ (terminator ++ rest))

theorem rootVolume_length (size : UInt8) (rest : List UInt8) :
    (rootVolume size rest).length = 18 * 2048 + rest.length := by
  simp only [rootVolume, List.length_append, List.length_replicate, rootDescriptor_length,
    terminator_length, vdRegionOffset, vdSize]
  omega

theorem rootVolume_lt (size : UInt8) {rest : List UInt8} (h : rest.length < 2 ^ 32) :
    (rootVolume size rest).length < 2 ^ 64 := by
  rw [rootVolume_length]
  omega

def rootSource (size : UInt8) (rest : List UInt8) (h : rest.length < 2 ^ 32) : Source :=
  ⟨rootVolume size rest, rootVolume_lt size h⟩

/-- The inode of the root. -/
def rootInode (size : ℕ) : Inode := ⟨rootKey, 18, size, [(18, size)], .directory, none, none⟩

theorem block2048_pos : 0 < 2048 := by decide

def rootPrimary (size : ℕ) : PrimaryVd := ⟨2048, block2048_pos, rootInode size⟩

/-- The volume when it is opened. -/
def rootMount (src : Source) (size : ℕ) : Iso9660 :=
  ⟨(rootPrimary size).volume src none, (InternTable.empty.intern rootKey (rootInode size)).2⟩

section RootVolume

variable {size : UInt8} {rest : List UInt8} {hrest : rest.length < 2 ^ 32}

theorem slice_rest {k n : ℕ} {bs : List UInt8} (h : slice rest k n = some bs) :
    slice (rootSource size rest hrest).content (18 * 2048 + k) n = some bs := by
  have hlen : (List.replicate vdRegionOffset 0 ++ (rootDescriptor size ++ terminator)).length =
      18 * 2048 := by
    rw [List.length_append, List.length_append, List.length_replicate, rootDescriptor_length,
      terminator_length]
    rfl
  have hfar := slice_append_right
    (List.replicate vdRegionOffset 0 ++ (rootDescriptor size ++ terminator)) rest k n
  rw [hlen, h] at hfar
  rw [← hfar]
  simp only [rootSource, rootVolume, List.append_assoc]

theorem readAt_rootDescriptor :
    (rootSource size rest hrest).readAt vdRegionOffset vdSize = .ok (rootDescriptor size) := by
  apply Source.readAt_eq_ok.mpr
  refine @slice_of_append _ _ (List.replicate vdRegionOffset 0) (rootDescriptor size)
    (terminator ++ rest) _ _ ?_ List.length_replicate.symm (rootDescriptor_length size).symm
  simp only [rootSource, rootVolume, List.append_assoc]

theorem readAt_terminator :
    (rootSource size rest hrest).readAt (vdRegionOffset + vdSize) vdSize = .ok terminator := by
  apply Source.readAt_eq_ok.mpr
  refine @slice_of_append _ _ (List.replicate vdRegionOffset 0 ++ rootDescriptor size) terminator
    rest _ _ ?_ ?_ terminator_length.symm
  · simp only [rootSource, rootVolume, List.append_assoc]
  · rw [List.length_append, List.length_replicate, rootDescriptor_length]

theorem scanVds_rootSource
    (hprimary : primaryVd (rootDescriptor size) = .ok (rootPrimary size.toNat)) :
    scanVds (rootSource size rest hrest) maxVdScan 0 ⟨none, none, none⟩ =
      .ok ⟨some (rootPrimary size.toNat), none, none⟩ := by
  have hlen : (rootSource size rest hrest).len = vdRegionOffset + vdSize + vdSize + rest.length :=
    rootVolume_length size rest
  have hend : u64 (vdRegionOffset + vdSize + vdSize) = .ok (vdRegionOffset + vdSize + vdSize) := by
    decide +kernel
  have hid : slice (rootDescriptor size) 1 5 = some standardId := rfl
  have htype : (rootDescriptor size)[0]? = some vdTypePrimary := rfl
  have hidLast : slice terminator 1 5 = some standardId := by decide +kernel
  have htypeLast : terminator[0]? = some vdTypeTerminator := rfl
  rw [scanVds_primary (by omega) readAt_rootDescriptor hid htype hprimary, scanVds, u64_secondVd,
    lift_ok_bind, hend, lift_ok_bind, hlen, if_neg (by omega), readAt_terminator, ok_bind, hidLast,
    unwrap, lift_ok_bind, if_neg (not_not.mpr rfl), htypeLast, unwrap, lift_ok_bind]
  exact if_pos rfl

theorem readDirExtent_root {dir : List UInt8} (hdir : slice rest 0 size.toNat = some dir) :
    readDirExtent (rootSource size rest hrest) 2048 (rootInode size.toNat) = .ok dir := by
  have hsize := size.toNat_lt
  have hcap : size.toNat ≤ maxBootFileBytes := by
    unfold maxBootFileBytes
    omega
  have hlen : checkedFullReadLen (rootInode size.toNat).size = .ok size.toNat :=
    checkedFullReadLen_eq_ok.mpr ⟨hcap, rfl⟩
  have hoff : u64 ((rootInode size.toNat).lba * 2048) = .ok (18 * 2048) :=
    u64_offset (show 18 < 2 ^ 32 by decide) (by decide)
  have hread := Source.readAt_eq_ok.mpr (@slice_rest size rest hrest 0 _ _ hdir)
  rw [readDirExtent, hlen, lift_ok_bind, hoff, lift_ok_bind]
  exact hread

/-- A root whose first record has no System Use area. -/
theorem mount_rootSource (hprimary : primaryVd (rootDescriptor size) = .ok (rootPrimary size.toNat))
    {r : Record} {more : List UInt8} (hdir : slice rest 0 size.toNat = some (r.encode ++ more))
    (hsu : r.encode.drop (suStart r.fi.length) = []) :
    mount (rootSource size rest hrest) =
      .ok (rootMount (rootSource size rest hrest) size.toNat) := by
  have hrecord : slice (r.encode ++ more) 0 r.len = some r.encode :=
    @slice_of_append _ _ [] r.encode more _ _ rfl rfl r.encode_length.symm
  have hsusp : detectSusp (rootSource size rest hrest) 2048 (rootInode size.toNat) = .ok none := by
    refine bind_eq_ok.mpr ⟨_, readDirExtent_root hdir, ?_⟩
    change (do
      let record ← okOr (slice (r.encode ++ more) 0 (UInt8.ofNat r.len).toNat)
        (.corrupt "iso: short root record")
      let fiLen ← okOr record[Dr.lenFi]? (.corrupt "iso: short root record")
      detectSp (record.drop (suStart fiLen.toNat))) = _
    rw [r.toNat_len, hrecord, okOr, ok_bind, r.encode_lenFi, okOr, ok_bind, r.toNat_fi_len, hsu,
      detectSp, detectSpFrom]
    rfl
  exact mount_of_scanVds (scanVds_rootSource hprimary) hsusp

end RootVolume

theorem record_fits : 33 + 1 + 0 < 2 ^ 8 := by decide

theorem date_zeros : (List.replicate 7 (0 : UInt8)).length = 7 := rfl

theorem volume_zeros : (List.replicate 6 (0 : UInt8)).length = 6 := rfl

/-- A record with a name of one byte, and no System Use area. -/
def shortRecord (lba size : ℕ) (hlba : lba < 2 ^ 32) (hsize : size < 2 ^ 32) (flags name : UInt8) :
    Record where
  attr := 0
  lba := lba
  lba_lt := hlba
  size := size
  size_lt := hsize
  date := List.replicate 7 0
  date_len := date_zeros
  flags := flags
  volume := List.replicate 6 0
  volume_len := volume_zeros
  fi := [name]
  su := []
  fits := record_fits

section ShortRecord

variable {lba size : ℕ} {hlba : lba < 2 ^ 32} {hsize : size < 2 ^ 32} {flags name : UInt8}

theorem shortRecord_drop :
    (shortRecord lba size hlba hsize flags name).encode.drop (suStart 1) = [] := by
  apply List.drop_eq_nil_of_le
  rw [Record.encode_length]
  exact Nat.le_refl 34

/-- Without Rock Ridge or Joliet, the name is that of the record. -/
theorem shortRecord_start {vol : Volume} (hrr : vol.rockRidge = false) (hjoliet : vol.joliet = false)
    (hutf8 : fromUtf8 [name] = some [name]) (hbase : baseName [name] = [name]) (dirLba pos : ℕ) :
    (shortRecord lba size hlba hsize flags name).start vol dirLba pos =
      .ok ([name], ⟨(dirLba, pos), lba, size, [(lba, size)],
        if (shortRecord lba size hlba hsize flags name).isDir = true then .directory else .regular,
        none, none⟩) := by
  have hname : ∀ isDir, fileName vol [name] isDir = .ok [name] := by
    intro isDir
    unfold fileName decodeName
    rw [if_neg (by simp [hjoliet]), hutf8, okOr, ok_bind]
    cases isDir with
    | true => rfl
    | false => exact congrArg Except.ok hbase
  have hinfo : ∀ record, recordInfo vol record 1 = .ok RrParser.default.info :=
    fun record => if_neg (by simp [hrr])
  change newEntry vol dirLba pos _ [name] _ lba size = _
  rw [newEntry, hname, lift_ok_bind]
  change recordInfo vol _ 1 >>= _ = _
  rw [hinfo]
  rfl

end ShortRecord

theorem block18_lt : 18 < 2 ^ 32 := by decide

theorem block19_lt : 19 < 2 ^ 32 := by decide

theorem block20_lt : 20 < 2 ^ 32 := by decide

theorem length102_lt : 102 < 2 ^ 32 := by decide

theorem length2_lt : 2 < 2 ^ 32 := by decide

theorem length1_lt : 1 < 2 ^ 32 := by decide

/-- Two bytes of `A`, of which there is more. -/
def firstOfA : Record := shortRecord 19 2 block19_lt length2_lt Dr.flagMultiExtent 0x41

/-- The record of the directory itself. -/
def dotRecord : Record := shortRecord 18 102 block18_lt length102_lt Dr.flagDirectory 0x00

/-- The last byte of `A`. -/
def lastOfA : Record := shortRecord 20 1 block20_lt length1_lt 0x00 0x41

/-- The two records, with that of the directory between them. -/
def twoExtentsRoot : List UInt8 := firstOfA.encode ++ (dotRecord.encode ++ (lastOfA.encode ++ []))

def twoExtentsRest : List UInt8 :=
  twoExtentsRoot ++ (List.replicate 1946 0 ++ [0x61, 0x62] ++ List.replicate 2046 0 ++ [0x63])

theorem twoExtentsRest_lt : twoExtentsRest.length < 2 ^ 32 := by decide +kernel

def twoExtents : Iso9660 := rootMount (rootSource 102 twoExtentsRest twoExtentsRest_lt) 102

theorem twoExtents_root : slice twoExtentsRest 0 102 = some twoExtentsRoot :=
  @slice_of_append _ _ [] twoExtentsRoot _ _ _ rfl rfl rfl

theorem primaryVd_twoExtents : primaryVd (rootDescriptor 102) = .ok (rootPrimary 102) := by
  decide +kernel

theorem mount_twoExtents : mount (rootSource 102 twoExtentsRest twoExtentsRest_lt) = .ok twoExtents :=
  mount_rootSource primaryVd_twoExtents twoExtents_root shortRecord_drop

def chainOfA : List (ℕ × Record) := [(0, firstOfA), (68, lastOfA)]

theorem twoExtents_laid : Laid 2048 0 twoExtentsRoot [chainOfA].flatten := by
  refine .record rfl (.dot rfl (.record rfl ?_))
  exact @Laid.done 2048 102 0 (by decide)

theorem chainOfA_isChain : IsChain chainOfA :=
  .multi (by decide) (by decide) (.last rfl (by decide) (by decide))

/-- The file `A`, of three bytes. -/
def fileA : Inode := ⟨(18, 0), 19, 3, [(19, 2), (20, 1)], .regular, none, none⟩

theorem chainOfA_entry : ChainEntry twoExtents.vol 18 chainOfA ([0x41], fileA) := by
  have hstart := @shortRecord_start 19 2 block19_lt length2_lt Dr.flagMultiExtent 0x41
    twoExtents.vol rfl rfl rfl rfl 18 0
  exact ⟨_, _, _, rfl, hstart, rfl⟩

theorem readDir_chains_twoExtents :
    ∃ es u, exec ((frontend false noStreams).readDir 0) twoExtents = (.ok es, u) ∧
      List.Forall₂ (StandsFor (frontend false noStreams) u) [([0x41], fileA)] es := by
  have hcap : (rootInode 102).size ≤ maxBootFileBytes := by decide
  have hchains : ∀ c ∈ [chainOfA], IsChain c := List.forall_mem_singleton.mpr chainOfA_isChain
  have hcount : ∀ c ∈ [chainOfA], c.length ≤ maxExtents := by decide
  have hextent := @slice_rest 102 twoExtentsRest twoExtentsRest_lt 0 102 _ twoExtents_root
  rw [Nat.add_zero] at hextent
  have hdir : twoExtents.table.inode 0 = .ok (rootInode 102) := rfl
  have hreach : Reaches (fun _ : Unit => frontend false noStreams) twoExtents twoExtents := .refl
  have hlisted := (readDir_chains mount_twoExtents hreach hdir rfl).1 hcap _ hextent _ hchains
  exact (hlisted.1 twoExtents_laid hcount).1 _ (.cons chainOfA_entry .nil)

/-- Sectors of zeros hold no records. -/
theorem laid_sectors {blockSize : ℕ} (hpos : 0 < blockSize) (n m : ℕ) :
    Laid blockSize (m * blockSize) (List.replicate (n * blockSize) 0) [] := by
  have hsector : ∀ m, (m * blockSize / blockSize + 1) * blockSize = m * blockSize + blockSize := by
    intro m
    rw [Nat.mul_div_cancel _ hpos, Nat.succ_mul]
  induction n generalizing m with
  | zero =>
    rw [Nat.zero_mul]
    apply Laid.done
    rw [hsector]
    omega
  | succ n ih =>
    rw [Nat.succ_mul, Nat.add_comm, List.replicate_add]
    apply Laid.padding hpos (hsector m).symm
    rw [← Nat.succ_mul]
    exact ih (m + 1)

theorem length0_lt : 0 < 2 ^ 32 := by decide

/-- The one file of the directory, `E`, which is empty. -/
def emptyFile : Record := shortRecord 0 0 length0_lt length0_lt 0x00 0x45

/-- A directory of `n` sectors behind the one with its record. -/
def wideDir (n : ℕ) : List UInt8 :=
  emptyFile.encode ++ (List.replicate 2014 0 ++ List.replicate (n * 2048) 0)

theorem wideDir_length (n : ℕ) : (wideDir n).length = (n + 1) * 2048 := by
  have hrecord : emptyFile.encode.length = 34 := rfl
  simp only [wideDir, List.length_append, List.length_replicate, hrecord]
  omega

theorem wideDir_laid (n : ℕ) : Laid 2048 0 (wideDir n) [[(0, emptyFile)]].flatten := by
  refine .record rfl (.padding (by decide) rfl ?_)
  exact laid_sectors block2048_pos n 1

theorem emptyFile_isChain : IsChain [(0, emptyFile)] := .single (.inl (by decide))

theorem wideDir_lt (n : ℕ) (hn : (n + 1) * 2048 < 2 ^ 31) : (n + 1) * 2048 < 2 ^ 32 := by omega

section Wide

variable (n : ℕ) (hn : (n + 1) * 2048 < 2 ^ 31)

/-- The record of that directory, `D`, in the root. -/
def wideRecord : Record :=
  shortRecord 19 ((n + 1) * 2048) block19_lt (wideDir_lt n hn) Dr.flagDirectory 0x44

theorem wideRecord_length : (wideRecord n hn).encode.length = 34 := Record.encode_length _

def wideRest : List UInt8 := (wideRecord n hn).encode ++ (List.replicate 2014 0 ++ wideDir n)

theorem wideRest_lt : (wideRest n hn).length < 2 ^ 32 := by
  simp only [wideRest, List.length_append, List.length_replicate, wideRecord_length, wideDir_length]
  omega

def wideSource : Source := rootSource 34 (wideRest n hn) (wideRest_lt n hn)

def wideMount : Iso9660 := rootMount (wideSource n hn) 34

/-- The node of the directory. -/
def wideInode : Inode :=
  ⟨(18, 0), 19, (n + 1) * 2048, [(19, (n + 1) * 2048)], .directory, none, none⟩

theorem primaryVd_wide : primaryVd (rootDescriptor 34) = .ok (rootPrimary 34) := by decide +kernel

theorem wideRest_root : slice (wideRest n hn) 0 34 = some ((wideRecord n hn).encode ++ []) := by
  rw [List.append_nil]
  exact @slice_of_append _ _ [] (wideRecord n hn).encode _ _ _ rfl rfl (wideRecord_length n hn).symm

theorem mount_wide : mount (wideSource n hn) = .ok (wideMount n hn) :=
  mount_rootSource primaryVd_wide (wideRest_root n hn) shortRecord_drop

theorem wide_extent : slice (wideSource n hn).content (19 * 2048) ((n + 1) * 2048) =
    some (wideDir n) := by
  have hplace : slice (wideRest n hn) 2048 ((n + 1) * 2048) = some (wideDir n) := by
    refine @slice_of_append _ _ ((wideRecord n hn).encode ++ List.replicate 2014 0) (wideDir n) []
      _ _ ?_ ?_ (wideDir_length n).symm
    · simp only [wideRest, List.append_assoc, List.append_nil]
    · rw [List.length_append, wideRecord_length, List.length_replicate]
  exact @slice_rest 34 (wideRest n hn) (wideRest_lt n hn) 2048 _ _ hplace

theorem wide_listed :
    forEachEntry (wideMount n hn).vol (rootInode 34) = .ok [([0x44], wideInode n)] := by
  have hread : readDirExtent (wideMount n hn).vol.src 2048 (rootInode 34) =
      .ok ((wideRecord n hn).encode ++ []) :=
    @readDirExtent_root 34 (wideRest n hn) (wideRest_lt n hn) _ (wideRest_root n hn)
  have hlaid : Laid 2048 0 ((wideRecord n hn).encode ++ []) [[(0, wideRecord n hn)]].flatten :=
    .record rfl (@Laid.done 2048 34 0 (by decide))
  have hisDir : (wideRecord n hn).isDir = true := by
    change decide (Dr.flagDirectory &&& Dr.flagDirectory ≠ 0) = true
    decide
  have hchain : IsChain [(0, wideRecord n hn)] := .single (.inr hisDir)
  have hstart := @shortRecord_start 19 ((n + 1) * 2048) block19_lt (wideDir_lt n hn)
    Dr.flagDirectory 0x44 (wideMount n hn).vol rfl rfl rfl rfl 18 0
  rw [show (shortRecord ..).isDir = true from hisDir, if_pos rfl] at hstart
  have hentry : ChainEntry (wideMount n hn).vol 18 [(0, wideRecord n hn)] ([0x44], wideInode n) :=
    ⟨_, _, _, rfl, hstart, (Inode.gathered_single rfl rfl).symm⟩
  have hcount : [(0, wideRecord n hn)].length ≤ maxExtents := by
    unfold maxExtents
    exact Nat.succ_le_succ (Nat.zero_le _)
  have hchains : ∀ c ∈ [[(0, wideRecord n hn)]], IsChain c ∧ c.length ≤ maxExtents :=
    List.forall_mem_singleton.mpr ⟨hchain, hcount⟩
  exact forEachEntry_chains hread hlaid hchains (.cons hentry .nil)

/-- The directory can be reached. -/
theorem wide_reached :
    ∃ t dir, Reaches (fun _ : Unit => frontend false noStreams) (wideMount n hn) t ∧
      t.vol = (wideMount n hn).vol ∧ t.table.inode dir = .ok (wideInode n) := by
  have hmount := mount_wide n hn
  have hroot : (wideMount n hn).table.inode 0 = .ok (rootInode 34) := rfl
  obtain ⟨es, t, hexec, hall⟩ := @readDir_listed _ false noStreams _ _ _ hmount .refl 0 _ hroot rfl _
    (wide_listed n hn)
  have hreach := ((keeps_reaches (fun _ : Unit => frontend false noStreams) () _).readDir 0).of_exec
    .refl hexec
  have hopened := hreach.keeps (fun _ => frontend_keeps_opened _) (mount_opened hmount).1
  cases hall with
  | @cons _ e _ es hfirst _ => exact ⟨t, e.node, hreach, hopened.vol_eq, hfirst.2⟩

end Wide

theorem wideSectors_lt : (2 ^ 18 + 1) * 2048 < 2 ^ 31 := by decide

/-- A directory over 512 MiB is laid out as any other, and refused. -/
theorem readDir_wide :
    mount (wideSource (2 ^ 18) wideSectors_lt) = .ok (wideMount (2 ^ 18) wideSectors_lt) ∧
      ∃ t dir, Reaches (fun _ : Unit => frontend false noStreams)
          (wideMount (2 ^ 18) wideSectors_lt) t ∧
        t.table.inode dir = .ok (wideInode (2 ^ 18)) ∧
        slice t.vol.src.content (19 * t.vol.blockSize) ((2 ^ 18 + 1) * 2048) =
          some (wideDir (2 ^ 18)) ∧
        Laid t.vol.blockSize 0 (wideDir (2 ^ 18)) [[(0, emptyFile)]].flatten ∧
        (∀ c ∈ [[(0, emptyFile)]], IsChain c ∧ c.length ≤ maxExtents) ∧
        (∃ entry, ChainEntry t.vol 19 [(0, emptyFile)] entry) ∧
        (exec ((frontend false noStreams).readDir dir) t).1 =
          fail (.fileTooLarge ((2 ^ 18 + 1) * 2048) maxBootFileBytes) := by
  have hcap : maxBootFileBytes < (2 ^ 18 + 1) * 2048 := by decide
  obtain ⟨t, dir, hreach, hvol, hnode⟩ := wide_reached (2 ^ 18) wideSectors_lt
  refine ⟨mount_wide _ _, t, dir, hreach, hnode, ?_, ?_, ?_, ?_, readDir_tooLarge hnode rfl hcap⟩
  · rw [hvol]
    exact wide_extent _ _
  · rw [hvol]
    exact wideDir_laid _
  · exact List.forall_mem_singleton.mpr ⟨emptyFile_isChain, by decide⟩
  · have hrr : t.vol.rockRidge = false := by rw [hvol]; rfl
    have hjoliet : t.vol.joliet = false := by rw [hvol]; rfl
    have hstart := @shortRecord_start 0 0 length0_lt length0_lt 0x00 0x45 t.vol hrr hjoliet rfl rfl 19 0
    exact ⟨([0x45], _), _, _, _, rfl, hstart, rfl⟩

end Lamfold.Iso9660
