import Lamfold.ErofsSums

/-!
Offsets in an EROFS volume. A call is answered exactly when the sums it forms fit:
the end of an inode, the place of the first piece of data it reads, and for a read
the end of its window and of each block that the reader gets to.
-/
namespace Lamfold.Erofs

open Effects Bytes

section Conditions

variable {ρ : Type} (codecs : Codecs ρ) (verifier : Verifier) (vol : Volume)

/-- The data of the block at `b`, or of the last one of the file. -/
def blockData (inode : Inode) (b : ℕ) : Outcome (List UInt8) :=
  layoutData codecs vol inode b (b + min vol.blockSize (inode.size - b))

/-- A read up to `stop` that is at the first block gets to the second: the blocks
between can be read and are accepted. -/
inductive BlockReached (node : NodeId) (inode : Inode) (stop : ℕ) : ℕ → ℕ → Prop
  | refl (b : ℕ) : BlockReached node inode stop b b
  | step {b b' : ℕ} {data : List UInt8} (hlt : b < stop)
      (hdata : blockData codecs vol inode b = .ok data)
      (haccepted : verifier node b data = .ok ())
      (hrest : BlockReached node inode stop (b + vol.blockSize) b') :
      BlockReached node inode stop b b'

/-- The sums of a read of `len` bytes at `off`. -/
def WindowFits (node : NodeId) (inode : Inode) (off len : ℕ) : Prop :=
  off + len < 2 ^ 64 ∧
    ∀ b, BlockReached codecs verifier vol node inode (min (off + len) inode.size)
        (off / vol.blockSize * vol.blockSize) b →
      b < 2 ^ 64 ∧ (b < min (off + len) inode.size → DataFits vol inode b)

/-- The sums of a read of all of an inode's data, which is at most the read cap. -/
def WholeFits (inode : Inode) : Prop :=
  inode.size ≤ maxBootFileBytes → 0 < inode.size → DataFits vol inode 0

/-- The sums that opening forms fit. -/
def MountFits (src : Source) : Prop :=
  ∀ vol, openVolume src = .ok vol → InodeFits vol vol.rootNid

/-- The sums that a listing forms fit. -/
def DirectoryFits (dir : NodeId) : Prop :=
  InodeFits vol dir ∧
    ∀ inode, readInode vol dir = .ok inode → inode.kind = .directory → WholeFits vol inode

/-- The sums that a call forms fit. -/
def CallFits : Call → Prop
  | .lookup dir _ => DirectoryFits vol dir
  | .readDir dir => DirectoryFits vol dir
  | .metadata node => InodeFits vol node
  | .readAt node off buf => InodeFits vol node ∧
      ∀ inode, readInode vol node = .ok inode → inode.kind ≠ .directory → off < inode.size →
        WindowFits codecs verifier vol node inode off buf.length
  | .readLink node => InodeFits vol node ∧
      ∀ inode, readInode vol node = .ok inode → inode.kind = .symlink → WholeFits vol inode

end Conditions

variable {ρ : Type} {codecs : Codecs ρ} {vol : Volume} {fs : Erofs} {node : NodeId} {inode : Inode}

theorem answered_refuse {sb : List UInt8} {incompat : ℕ} :
    Answered (refuseUnsupportedFeatures sb incompat) := by
  refine Answered.ite (fun _ => trivial) fun _ => ?_
  refine Answered.ite (fun _ => trivial) fun _ => ?_
  refine Answered.ite (fun _ => trivial) fun _ => ?_
  refine (answered_leAt ..).bind fun extraDevices _ => ?_
  refine Answered.ite (fun _ => trivial) fun _ => ?_
  exact (answered_leAt ..).bind fun _ _ => Answered.ite (fun _ => trivial) fun _ => trivial

theorem answered_openVolume {src : Source} : Answered (openVolume src) := by
  refine Answered.ite (fun _ => trivial) fun _ => ?_
  refine (answered_readAt ..).bind fun sb _ => ?_
  refine (answered_leAt ..).bind fun found _ => ?_
  refine Answered.ite (fun _ => trivial) fun _ => ?_
  dsimp only
  split
  · rename_i hbits
    refine (answered_leAt ..).bind fun incompat _ => ?_
    refine answered_refuse.bind fun _ _ => ?_
    refine (answered_leAt ..).bind fun rootNid _ => ?_
    refine (answered_leAt ..).bind fun metaBlkaddr hmeta => ?_
    have hblock : 2 ^ (sb.getD 12 0).toNat ≤ 2 ^ 16 := Nat.pow_le_pow_right (by decide) hbits.2
    have hlt : metaBlkaddr * 2 ^ (sb.getD 12 0).toNat < 2 ^ 64 :=
      calc metaBlkaddr * 2 ^ (sb.getD 12 0).toNat ≤ metaBlkaddr * 2 ^ 16 :=
            Nat.mul_le_mul_left _ hblock
        _ < 256 ^ 4 * 2 ^ 16 := Nat.mul_lt_mul_of_pos_right (leAt_lt hmeta) (Nat.two_pow_pos 16)
        _ ≤ 2 ^ 64 := by decide
    refine Answered.bind (answered_fits.mpr hlt) fun _ _ => ?_
    obtain ⟨size, hsize⟩ := parseLzmaCfg_ok src (superOffset + 128 + (sb.getD 13 0).toNat * 16)
    rw [hsize]
    trivial
  · trivial

theorem answered_mount {src : Source} : Answered (mount src) ↔ MountFits src := by
  unfold mount MountFits
  rw [answered_bind, iff_true_intro answered_openVolume, true_and]
  refine forall_congr' fun vol => forall_congr' fun _ => ?_
  have hnew : (⟨vol, ∅, ∅⟩ : Erofs).inodes.contains vol.rootNid = false :=
    Std.TreeMap.contains_emptyc
  rw [withInode, if_neg (by rw [hnew]; exact Bool.false_ne_true), answered_bind,
    answered_readInode]
  exact and_iff_left fun _ _ => trivial

theorem answered_dirent {block : List UInt8} {count i : ℕ} : Answered (dirent block count i) := by
  refine (answered_leAt ..).bind fun nid _ => ?_
  refine (answered_leAt ..).bind fun nameoff _ => ?_
  refine Answered.bind (answered_okOr ..) fun fileType _ => ?_
  have hname : ∀ nameEnd, Answered (okOr (sliceRange block nameoff nameEnd)
      (.corrupt "erofs: dirent name OOB")) := fun _ => answered_okOr ..
  dsimp only
  split
  · refine (answered_leAt ..).bind fun nameEnd _ => ?_
    exact (hname nameEnd).bind fun raw _ => Answered.ite (fun _ => trivial) fun _ => trivial
  · refine Answered.bind (answered_ok _) fun nameEnd _ => ?_
    exact (hname nameEnd).bind fun raw _ => Answered.ite (fun _ => trivial) fun _ => trivial

theorem answered_parseDirData {data : List UInt8} : Answered (parseDirData vol data) := by
  fun_induction parseDirData vol data with
  | case1 => trivial
  | case2 data hne ih =>
    refine Answered.bind ?_ fun entries _ => ih.bind fun _ _ => trivial
    refine Answered.ite (fun _ => trivial) fun _ => ?_
    refine (answered_leAt ..).bind fun firstNameoff _ => ?_
    exact (Answered.mapM fun i _ => answered_dirent).bind fun _ _ => trivial

theorem layoutData_length {off stop : ℕ} {out : List UInt8}
    (h : layoutData codecs vol inode off stop = .ok out) : out.length = stop - off := by
  unfold layoutData at h
  split_ifs at h
  · obtain ⟨data, -, h⟩ := bind_eq_ok.mp h
    exact slice_length (okOr_eq_ok.mp h)
  · exact readFlat_length h

/-- A read of data that lies in the file, into a buffer of its length. -/
theorem inodeData_eq {off len : ℕ} {buf : List UInt8} (hlen : buf.length = len) (hpos : 0 < len)
    (hend : off + len ≤ inode.size) (hsize : inode.size < 2 ^ 64) :
    inodeData codecs vol inode off buf =
      (layoutData codecs vol inode off (off + len)).map fun data => (len, data) := by
  have hasked : u64 (off + buf.length) = .ok (off + len) :=
    fits_eq_ok.mpr ⟨by omega, by rw [hlen]⟩
  unfold inodeData
  rw [if_neg (by omega), hasked, ok_bind]
  dsimp only
  rw [Nat.min_eq_left hend, Nat.add_sub_cancel_left]
  cases hdata : layoutData codecs vol inode off (off + len) with
  | error e => rfl
  | ok data =>
    have hdata := layoutData_length hdata
    have hover : overwrite buf 0 data = data := by
      unfold overwrite
      rw [List.take_zero, List.nil_append, List.drop_eq_nil_of_le (by omega), List.append_nil]
    rw [ok_bind, hover]
    rfl

/-- All of a file that is not too large. -/
theorem answered_readWhole (hfs : HoldsInode codecs vol node inode fs)
    (hinode : inode.Bounded) (hsize : inode.size ≤ maxBootFileBytes) :
    Answered (exec (readInodeData codecs node 0 (List.replicate inode.size 0)) fs).1 ↔
      WholeFits vol inode := by
  rw [readInodeData_run hfs]
  unfold WholeFits
  rcases Nat.eq_zero_or_pos inode.size with hzero | hpos
  · unfold inodeData
    rw [if_pos (by omega)]
    exact iff_of_true trivial fun _ h => absurd hzero (by omega)
  · have hmap : ∀ x : Outcome (List UInt8),
        Answered (x.map fun data => (inode.size, data)) ↔ Answered x := by
      intro x
      rcases x with e | data
      · cases e <;> exact Iff.rfl
      · exact Iff.rfl
    rw [inodeData_eq List.length_replicate hpos (by omega) hinode.size_lt, hmap,
      answered_layoutData codecs hinode (Nat.dvd_zero _) (by omega) (by omega) (.inr hsize)]
    exact ⟨fun h _ _ => h, fun h => h hsize hpos⟩

/-- A call that starts by parsing an inode is answered when that is, and it is with
the inode found. -/
theorem answered_parsed {α : Type} {f : Inode → Method Erofs α} {P : Inode → Prop}
    (hfs : Holds codecs vol fs)
    (hf : ∀ inode t, readInode vol node = .ok inode → HoldsInode codecs vol node inode t →
      (Answered (exec (f inode) t).1 ↔ P inode)) :
    Answered (exec (parseInode node >>= fun _ => Erofs.inode node >>= f) fs).1 ↔
      InodeFits vol node ∧ ∀ inode, readInode vol node = .ok inode → P inode := by
  obtain ⟨t, hrun, -, hcached⟩ := exec_parseInode hfs node
  rw [exec_bind, hrun, ← answered_readInode]
  cases hread : readInode vol node with
  | error e =>
    have hsame : Answered (.error e : Outcome α) ↔ Answered (.error e : Outcome Inode) := by
      cases e <;> exact Iff.rfl
    refine hsame.trans (and_iff_left ?_).symm
    intro inode h
    cases h
  | ok found =>
    have hfound := hcached found hread
    dsimp only [Except.map]
    rw [exec_bind_of_ok (exec_inode_cached hfound), hf found t hread hfound]
    constructor
    · intro h
      refine ⟨trivial, ?_⟩
      intro inode hinode
      cases hinode
      exact h
    · intro h
      exact h.2 found rfl

/-- A read of all the data of an inode, and what is done with it. -/
theorem answered_readChecked {α : Type} {g : ℕ × List UInt8 → Method Erofs α}
    (ht : HoldsInode codecs vol node inode fs) (hinode : inode.Bounded)
    (hg : ∀ data t, Answered (exec (g data) t).1) :
    Answered (exec ((do
      let size ← checkedFullReadLen inode.size
      let data ← readInodeData codecs node 0 (List.replicate size 0)
      g data) : Method Erofs α) fs).1 ↔ WholeFits vol inode := by
  rw [answered_exec_lift_bind]
  constructor
  · intro h hsize
    have h := (answered_exec_bind.mp (h.2 _ (checkedFullReadLen_eq_ok.mpr ⟨hsize, rfl⟩))).1
    exact (answered_readWhole ht hinode hsize).mp h hsize
  · intro h
    refine ⟨answered_checkedLen .., ?_⟩
    intro size hsize
    obtain ⟨hle, rfl⟩ := checkedFullReadLen_eq_ok.mp hsize
    refine answered_exec_bind.mpr ⟨(answered_readWhole ht hinode hle).mpr h, ?_⟩
    intro data t _
    exact hg data t

theorem answered_readDir (hfs : Holds codecs vol fs) (dir : NodeId) :
    Answered (exec (readDir codecs dir) fs).1 ↔ DirectoryFits vol dir := by
  refine answered_parsed hfs fun inode t hread ht => ?_
  have hwhole := answered_readChecked (α := List DirEntry) ht (readInode_bounded hread)
    (g := fun data => do
      let fs ← get
      parseDirData fs.vol data.2) fun data t => answered_parseDirData
  rw [answered_exec_ite]
  constructor
  · intro h hkind
    exact hwhole.mp (h.2 (not_not.mpr hkind))
  · intro h
    exact ⟨fun _ => trivial, fun hkind => hwhole.mpr (h (not_not.mp hkind))⟩

theorem answered_readLink (hfs : Holds codecs vol fs) :
    Answered (exec (readLink codecs node) fs).1 ↔ InodeFits vol node ∧
      ∀ inode, readInode vol node = .ok inode → inode.kind = .symlink → WholeFits vol inode := by
  refine answered_parsed hfs fun inode t hread ht => ?_
  have hwhole := answered_readChecked (α := Option (List UInt8)) ht (readInode_bounded hread)
    (g := fun data => pure (some data.2)) fun data t => trivial
  rw [answered_exec_ite]
  constructor
  · intro h hkind
    exact hwhole.mp (h.2 (not_not.mpr hkind))
  · intro h
    exact ⟨fun _ => trivial, fun hkind => hwhole.mpr (h (not_not.mp hkind))⟩

theorem answered_metadata (hfs : Holds codecs vol fs) :
    Answered (exec (metadata node) fs).1 ↔ InodeFits vol node := by
  refine (answered_parsed hfs (P := fun _ => True) fun inode t _ _ => ?_).trans ?_
  · exact iff_of_true trivial trivial
  · exact and_iff_left fun _ _ => trivial

section Window

variable {verifier : Verifier} {off stop blockStart : ℕ}

/-- A read in progress whose inode is cached and whose scratch block is a block. -/
structure Filling (codecs : Codecs ρ) (vol : Volume) (node : NodeId) (inode : Inode)
    (w : Window) : Prop where
  holds : HoldsInode codecs vol node inode w.fs
  block_length : w.block.length = vol.blockSize

/-- Filling the scratch block is reading the block's data. -/
theorem exec_fillBlock_data {w : Window} (hw : Filling codecs vol node inode w)
    (hlt : blockStart < inode.size) (hsize : inode.size < 2 ^ 64) :
    ∃ t, exec (fillBlock codecs node blockStart (min vol.blockSize (inode.size - blockStart))) w =
        ((blockData codecs vol inode blockStart).map fun _ => (), t) ∧
      ∀ data, blockData codecs vol inode blockStart = .ok data →
        Filling codecs vol node inode t ∧
          t.block.take (min vol.blockSize (inode.size - blockStart)) = data := by
  have hpos := vol.blockSize_pos
  obtain ⟨blockLen, hlen⟩ : ∃ n, n = min vol.blockSize (inode.size - blockStart) := ⟨_, rfl⟩
  have hblock : blockData codecs vol inode blockStart =
      layoutData codecs vol inode blockStart (blockStart + blockLen) := by rw [hlen, blockData]
  rw [← hlen]
  have htake : (w.block.take blockLen).length = blockLen := by
    rw [List.length_take, hw.block_length]
    omega
  have hrun := readInodeData_run hw.holds blockStart (w.block.take blockLen)
  have hkeep := (cacheKept_holdsInode codecs vol node inode).readInodeData node blockStart
    (w.block.take blockLen) w.fs hw.holds
  rw [inodeData_eq htake (by omega) (by omega) hsize, ← hblock] at hrun
  rcases hexec : exec (readInodeData codecs node blockStart (w.block.take blockLen)) w.fs with ⟨r, fs'⟩
  rw [hexec] at hrun hkeep
  dsimp only at hrun hkeep
  have hzoom : exec (onVolume (readInodeData codecs node blockStart (w.block.take blockLen))) w =
      (r, { w with fs := fs' }) := by
    rw [onVolume, exec_zoom, hexec]
  unfold fillBlock
  rw [exec_bind_of_ok (exec_get w)]
  cases hdata : blockData codecs vol inode blockStart with
  | error e =>
    rw [hdata] at hrun
    rw [hrun] at hzoom
    refine ⟨_, exec_bind_of_error hzoom, ?_⟩
    intro data h
    cases h
  | ok data =>
    rw [hdata] at hrun
    rw [hrun] at hzoom
    rw [exec_bind_of_ok hzoom]
    refine ⟨_, rfl, ?_⟩
    intro data' h
    cases h
    have hdataLen := layoutData_length (hblock.symm.trans hdata)
    refine ⟨⟨hkeep, ?_⟩, ?_⟩
    · refine (overwrite_length ?_).trans hw.block_length
      rw [hw.block_length]
      omega
    · show (overwrite w.block 0 data).take blockLen = data
      unfold overwrite
      rw [List.take_zero, List.nil_append]
      refine (List.take_append_of_le_length (by omega)).trans ?_
      exact List.take_of_length_le (by omega)

theorem exec_surface_ok (off stop blockStart blockLen : ℕ) (w : Window) :
    ∃ count t, exec (surface off stop blockStart blockLen) w = (.ok count, t) ∧ t.fs = w.fs ∧
      t.block = w.block := by
  unfold surface
  dsimp only
  rw [exec_ite]
  split_ifs
  · exact ⟨_, _, rfl, rfl, rfl⟩
  · exact ⟨_, _, rfl, rfl, rfl⟩

/-- What the block loop reaches from one block on. -/
theorem reached_iff {P : ℕ → Prop} {data : List UInt8} (hlt : blockStart < stop)
    (hdata : blockData codecs vol inode blockStart = .ok data)
    (haccepted : verifier node blockStart data = .ok ()) :
    (∀ b, BlockReached codecs verifier vol node inode stop blockStart b → P b) ↔
      P blockStart ∧
        ∀ b, BlockReached codecs verifier vol node inode stop (blockStart + vol.blockSize) b → P b := by
  constructor
  · intro h
    exact ⟨h _ (.refl _), fun b hb => h b (.step hlt hdata haccepted hb)⟩
  · rintro ⟨hfirst, hrest⟩ b hb
    cases hb with
    | refl => exact hfirst
    | step _ _ _ hb => exact hrest b hb

/-- A block that cannot be read, or that is refused, is the last one reached. -/
theorem reached_last {P : ℕ → Prop}
    (hlast : ∀ data, blockData codecs vol inode blockStart = .ok data →
      verifier node blockStart data ≠ .ok ()) :
    (∀ b, BlockReached codecs verifier vol node inode stop blockStart b → P b) ↔ P blockStart := by
  constructor
  · intro h
    exact h _ (.refl _)
  · intro h b hb
    cases hb with
    | refl => exact h
    | step _ hdata haccepted _ => exact absurd haccepted (hlast _ hdata)

theorem answered_readBlocks {blockStart produced : ℕ} {w : Window}
    (hw : Filling codecs vol node inode w)
    (hinode : inode.Bounded) (hverifier : ∀ node start block, Answered (verifier node start block))
    (hdvd : vol.blockSize ∣ blockStart) (hstart : blockStart < 2 ^ 64)
    (hstop : stop ≤ inode.size) :
    Answered (exec (readBlocks codecs verifier node vol off stop inode.size blockStart produced) w).1 ↔
      ∀ b, BlockReached codecs verifier vol node inode stop blockStart b →
        b < 2 ^ 64 ∧ (b < stop → DataFits vol inode b) := by
  by_cases hlt : blockStart < stop
  · have hinside : blockStart < inode.size := Nat.lt_of_lt_of_le hlt hstop
    obtain ⟨t, hfill, ht⟩ := exec_fillBlock_data hw hinside hinode.size_lt
    have hfits : Answered (blockData codecs vol inode blockStart) ↔ DataFits vol inode blockStart :=
      answered_layoutData codecs hinode hdvd (by have := vol.blockSize_pos; omega) (by omega)
        (.inl (by omega))
    rw [readBlocks, if_pos hlt]
    dsimp only
    rw [exec_bind, hfill]
    cases hdata : blockData codecs vol inode blockStart with
    | error e =>
      have hunread : ∀ data, blockData codecs vol inode blockStart = .ok data →
          verifier node blockStart data ≠ .ok () := by
        intro data h
        cases hdata.symm.trans h
      rw [reached_last hunread, ← hfits, hdata]
      have hsame : Answered (.error e : Outcome ℕ) ↔ Answered (.error e : Outcome (List UInt8)) := by
        cases e <;> exact Iff.rfl
      exact hsame.trans ⟨fun h => ⟨hstart, fun _ => h⟩, fun h => h.2 hlt⟩
    | ok data =>
      obtain ⟨ht, hblock⟩ := ht data hdata
      have hfits := hfits.mp (by rw [hdata]; trivial)
      dsimp only [Except.map]
      rw [exec_bind, exec_verifyBlock, hblock]
      have hanswer := hverifier node blockStart data
      cases haccepted : verifier node blockStart data with
      | error e =>
        rw [haccepted] at hanswer
        have hrefused : ∀ data', blockData codecs vol inode blockStart = .ok data' →
            verifier node blockStart data' ≠ .ok () := by
          intro data' hdata' hok
          obtain rfl := Except.ok.inj (hdata.symm.trans hdata')
          rw [haccepted] at hok
          cases hok
        rw [reached_last hrefused]
        refine iff_of_true ?_ ⟨hstart, fun _ => hfits⟩
        cases e <;> exact hanswer
      | ok _ =>
        rw [reached_iff hlt hdata haccepted]
        dsimp only
        obtain ⟨count, u, hsurface, hfs, hblock⟩ := exec_surface_ok off stop blockStart
          (min vol.blockSize (inode.size - blockStart))
          { t with events := t.events ++ [Event.verified blockStart data (.ok ())] }
        have hu : Filling codecs vol node inode u := by
          refine ⟨?_, ?_⟩
          · rw [hfs]
            exact ht.holds
          · rw [hblock]
            exact ht.block_length
        rw [exec_bind_of_ok hsurface, answered_exec_lift_bind, answered_fits]
        constructor
        · rintro ⟨hnext, hrest⟩
          have hrest := hrest _ (fits_eq_ok.mpr ⟨hnext, rfl⟩)
          refine ⟨⟨hstart, fun _ => hfits⟩, ?_⟩
          exact (answered_readBlocks hu hinode hverifier (Nat.dvd_add hdvd (Nat.dvd_refl _)) hnext
            hstop).mp hrest
        · rintro ⟨-, hrest⟩
          have hnext := (hrest _ (.refl _)).1
          refine ⟨hnext, ?_⟩
          intro _ _
          exact (answered_readBlocks hu hinode hverifier (Nat.dvd_add hdvd (Nat.dvd_refl _)) hnext
            hstop).mpr hrest
  · rw [readBlocks, if_neg hlt]
    refine iff_of_true trivial ?_
    intro b hb
    cases hb with
    | refl => exact ⟨hstart, fun h => absurd h hlt⟩
    | step h => exact absurd h hlt
  termination_by stop - blockStart
  decreasing_by
    all_goals
      have hpos := vol.blockSize_pos
      omega

/-- A read in progress of a node whose inode can be read, once it is parsed. -/
theorem exec_parsedWindow {α : Type} {w : Window} (hw : Ready codecs vol w)
    (hread : readInode vol node = .ok inode) (f : Inode → Method Window α) :
    ∃ u, exec (onVolume (parseInode node) >>= fun _ => onVolume (Erofs.inode node) >>= f) w =
        exec (f inode) u ∧
      Filling codecs vol node inode u ∧ u.buf = w.buf ∧ u.events = w.events := by
  obtain ⟨t, hrun, -, hcached⟩ := exec_parseInode hw.1 node
  rw [hread] at hrun
  have hfound := hcached inode hread
  have hparse : exec (onVolume (parseInode node)) w = (.ok (), { w with fs := t }) := by
    rw [onVolume, exec_zoom, hrun]
    rfl
  have hinode : exec (onVolume (Erofs.inode node)) { w with fs := t } =
      (.ok inode, { w with fs := t }) := by
    rw [onVolume, exec_zoom, exec_inode_cached hfound]
  refine ⟨{ w with fs := t }, ?_, ⟨hfound, hw.2⟩, rfl, rfl⟩
  rw [exec_bind_of_ok hparse, exec_bind_of_ok hinode]

/-- As `answered_parsed`, for a read in progress. -/
theorem answered_parsedWindow {α : Type} {f : Inode → Method Window α} {P : Inode → Prop}
    {w : Window} (hw : Ready codecs vol w)
    (hf : ∀ inode u, readInode vol node = .ok inode → Filling codecs vol node inode u →
      u.buf = w.buf → (Answered (exec (f inode) u).1 ↔ P inode)) :
    Answered (exec (onVolume (parseInode node) >>= fun _ =>
        onVolume (Erofs.inode node) >>= f) w).1 ↔
      InodeFits vol node ∧ ∀ inode, readInode vol node = .ok inode → P inode := by
  rw [← answered_readInode]
  cases hread : readInode vol node with
  | error e =>
    obtain ⟨t, hrun, -, -⟩ := exec_parseInode hw.1 node
    have hparse : exec (onVolume (parseInode node)) w = (.error e, { w with fs := t }) := by
      rw [onVolume, exec_zoom, hrun, hread]
      rfl
    rw [exec_bind_of_error hparse]
    have hsame : Answered (.error e : Outcome α) ↔ Answered (.error e : Outcome Inode) := by
      cases e <;> exact Iff.rfl
    refine hsame.trans (and_iff_left ?_).symm
    intro inode h
    cases h
  | ok found =>
    obtain ⟨u, hrun, hu, hbuf, -⟩ := exec_parsedWindow hw hread f
    rw [hrun, hf found u hread hu hbuf]
    constructor
    · intro h
      refine ⟨trivial, ?_⟩
      intro inode hinode
      cases hinode
      exact h
    · intro h
      exact h.2 found rfl

theorem answered_readAt_iff (hfs : Holds codecs vol fs) {buf : List UInt8}
    (hverifier : ∀ node start block, Answered (verifier node start block)) :
    Answered (exec (readAt codecs verifier node off buf) fs).1 ↔
      CallFits codecs verifier vol (.readAt node off buf) := by
  have hready : Ready codecs vol (.start fs buf) := ⟨hfs, by simp [Window.start, hfs.vol_eq]⟩
  rw [exec_readAt]
  dsimp only
  rw [answered_map]
  refine answered_parsedWindow hready fun inode u hread hu hbuf => ?_
  have hinode := readInode_bounded hread
  have hlen : u.buf.length = buf.length := congrArg List.length hbuf
  have hfirst := Nat.div_mul_le_self off vol.blockSize
  rw [answered_exec_ite, answered_exec_ite]
  constructor
  · intro h hkind hoff
    have h := (h.2 hkind).2 (Nat.not_le_of_lt hoff)
    rw [exec_bind_of_ok (exec_get u), answered_exec_lift_bind, answered_fits, hlen,
      hu.holds.vol_eq] at h
    refine ⟨h.1, ?_⟩
    have h := h.2 _ (fits_eq_ok.mpr ⟨h.1, rfl⟩)
    have hbound := hinode.size_lt
    exact (answered_readBlocks hu hinode hverifier (Nat.dvd_mul_left ..) (by omega)
      (Nat.min_le_right ..)).mp h
  · intro h
    refine ⟨fun _ => trivial, fun hkind => ⟨fun _ => trivial, fun hoff => ?_⟩⟩
    have hoff := Nat.lt_of_not_le hoff
    obtain ⟨hend, hblocks⟩ := h hkind hoff
    rw [exec_bind_of_ok (exec_get u), answered_exec_lift_bind, answered_fits, hlen,
      hu.holds.vol_eq]
    refine ⟨hend, ?_⟩
    intro asked hasked
    obtain ⟨-, rfl⟩ := fits_eq_ok.mp hasked
    have hbound := hinode.size_lt
    exact (answered_readBlocks hu hinode hverifier (Nat.dvd_mul_left ..) (by omega)
      (Nat.min_le_right ..)).mpr hblocks

end Window

/-- Opening, and any call under a verifier that answers, in any state a mounted volume
can reach, is answered exactly when the sums it forms fit. No index is out of range
and no subtraction below zero then. -/
theorem answers_iff_offsetsFit (codecs : Codecs ρ) (src : Source) :
    (Answered (mount src) ↔ MountFits src) ∧
      ∀ fs t verifier call, mount src = .ok fs → Reaches (Checked.frontend codecs) fs t →
        (∀ node start block, Answered (verifier node start block)) →
          ((Checked.frontend codecs verifier).Answers call t ↔
            CallFits codecs verifier t.vol call) := by
  refine ⟨answered_mount, ?_⟩
  intro fs t verifier call hmount hrun hverifier
  have hfs : Holds codecs fs.vol fs := mount_holds hmount
  have hrun := hrun.of_alike (fun v => checked_alike fs.vol v)
    (cacheKept_holds codecs fs.vol).frontend hfs
  have ht := hrun.keeps (cacheKept_holds codecs fs.vol).frontend hfs
  rw [(checked_alike fs.vol verifier).answers call ht, ht.vol_eq]
  cases call with
  | lookup dir name =>
    refine Iff.trans ?_ (answered_readDir ht dir)
    refine answered_exec_bind.trans (and_iff_left ?_)
    intro entries u _
    trivial
  | readDir dir => exact answered_readDir ht dir
  | metadata node => exact answered_metadata ht
  | readAt node off buf => exact answered_readAt_iff ht hverifier
  | readLink node => exact answered_readLink ht

/-- A volume whose root is a file of 2^64 - 1 bytes from block 0 on. -/
def hugeFile : Source where
  content := List.replicate 1024 0 ++ tinySuperblock ++
    [1, 0, 0, 0, 0, 0x80, 0, 0] ++ List.replicate 8 255 ++ List.replicate 48 0
  length_lt := by decide +kernel

def hugeInode : Inode := ⟨.regular, 2 ^ 64 - 1, 0x8000, 0, 0, 1216⟩

def hugeMount : Erofs :=
  ⟨tinyVolume hugeFile, (∅ : Std.TreeMap NodeId Inode).insert 4 hugeInode, ∅⟩

theorem readInode_hugeFile : readInode (tinyVolume hugeFile) 4 = .ok hugeInode := by
  decide +kernel

theorem mount_hugeFile : mount hugeFile = .ok hugeMount :=
  @mount_eq_ok _ (tinyVolume hugeFile) _ (by decide +kernel) readInode_hugeFile

theorem answers_iff_offsetsFit_hugeFile :
    (Checked.frontend noStreams noVerifier).Answers (.readAt 4 700 [0, 0]) hugeMount ↔
      CallFits noStreams noVerifier hugeMount.vol (.readAt 4 700 [0, 0]) :=
  (answers_iff_offsetsFit noStreams hugeFile).2 hugeMount hugeMount noVerifier
    (.readAt 4 700 [0, 0]) mount_hugeFile .refl fun _ _ _ => trivial

/-- Two bytes asked for just before the end: the end of the window leaves 64 bits. -/
theorem readAt_hugeFile :
    mount hugeFile = .ok hugeMount ∧
      ¬(Checked.frontend noStreams noVerifier).Answers (.readAt 4 (2 ^ 64 - 2) [0, 0]) hugeMount := by
  have hfs : Holds noStreams (tinyVolume hugeFile) hugeMount := mount_holds mount_hugeFile
  refine ⟨mount_hugeFile, ?_⟩
  intro h
  have h := ((checked_alike (tinyVolume hugeFile) noVerifier).answers _ hfs).mp h
  have hverifier : ∀ node start block, Answered (noVerifier node start block) :=
    fun _ _ _ => trivial
  have hfits : CallFits noStreams noVerifier (tinyVolume hugeFile) (.readAt 4 (2 ^ 64 - 2) [0, 0]) :=
    (answered_readAt_iff hfs hverifier).mp h
  have hwindow := hfits.2 hugeInode readInode_hugeFile (by decide) (by decide)
  exact absurd hwindow.1 (by decide)

end Lamfold.Erofs
