import Lamfold.Requests
import Lamfold.UdfAddresses

/-!
What the UDF frontend asks of its source. A block is asked for as a whole, and its size is
what the volume records: requests are capped exactly when the block size is, or no block
of that size lies where the File Set Descriptor is expected.
-/
namespace Lamfold.Udf

open Effects Bytes Utf8

/-- The frontend, with what it asks noted. -/
def recordedMethods : FoldFrontendIn (StateM (List Request)) Udf := frontendIn (m := Asking)

variable {limit : ℕ}

/-- A block that ends behind the source is refused before it is asked for. -/
theorem asks_readBlock_of_le {src : Source} {blockSize lba : ℕ}
    (hsize : lba * blockSize + blockSize ≤ src.len → blockSize ≤ limit) :
    Asks limit (readBlock src blockSize lba) (readBlock src blockSize lba) := by
  refine .bind (.of _) fun off hoff => .bind (.of _) fun stop hstop => ?_
  obtain ⟨-, rfl⟩ := fits_eq_ok.mp hoff
  obtain ⟨-, rfl⟩ := fits_eq_ok.mp hstop
  exact .ite (fun _ => .of _) fun hin => asks_source src _ (hsize (Nat.le_of_not_lt hin))

theorem asks_readBlock (src : Source) {blockSize : ℕ} (lba : ℕ) (hsize : blockSize ≤ limit) :
    Asks limit (readBlock src blockSize lba) (readBlock src blockSize lba) :=
  asks_readBlock_of_le fun _ => hsize

theorem asks_readFe {vol : Volume} (lba : ℕ) (hsize : vol.blockSize ≤ limit) :
    Asks limit (readFe vol lba) (readFe vol lba) :=
  .bind (asks_readBlock vol.src lba hsize) fun _ _ => .of _

theorem asks_readExtent (vol : Volume) (e : Extent) (intra n : ℕ) (hn : n ≤ limit) :
    Asks limit (readExtent vol e intra n) (readExtent vol e intra n) := by
  unfold readExtent
  cases e.lba with
  | some lba => exact .bind (.of _) fun disk _ => asks_source vol.src disk hn
  | none => exact .pure _

/-- A whole file is asked for in pieces that are no longer than it. -/
theorem asks_readAllExtents (vol : Volume) {total : ℕ} (htotal : total ≤ limit)
    (es : List Extent) (out : List UInt8) :
    Asks limit (readAllExtents vol total es out) (readAllExtents vol total es out) := by
  induction es generalizing out with
  | nil => exact .pure out
  | cons e rest ih =>
    rw [readAllExtents, readAllExtents]
    refine .ite (fun _ => .pure out) fun _ => ?_
    refine .bind (asks_readExtent vol e 0 _ (by omega)) fun chunk _ => ?_
    exact ih (out ++ chunk)

theorem asks_readAll (vol : Volume) (inode : UdfInode) (hlimit : maxBootFileBytes ≤ limit) :
    Asks limit (readAll vol inode) (readAll vol inode) := by
  unfold readAll
  cases inode.data with
  | inline b => exact .pure b
  | extents ex =>
    refine .bind (.of _) fun total htotal => ?_
    obtain ⟨hle, rfl⟩ := checkedFullReadLen_eq_ok.mp htotal
    exact .bind (asks_readAllExtents vol (hle.trans hlimit) ex []) fun out _ => .pure _

theorem asks_readData (vol : Volume) (data : FileData) (off : ℕ) {want : ℕ} (hwant : want ≤ limit) :
    Asks limit (readData vol data off want) (readData vol data off want) := by
  cases data with
  | inline b => exact .of _
  | extents ex => exact asks_readExtents Extent.len (asks_readExtent vol) hwant off ex 0 []

theorem asks_probe (src : Source) : Asks maxBootFileBytes (probe src) (probe src) := by
  refine .ite (fun _ => .pure _) fun _ => ?_
  exact .bind (asks_source src _ (by decide)) fun _ _ => .pure _

/-- The volume descriptors are asked for sector by sector. -/
theorem asks_walkVds (src : Source) (mvdsLoc count i : ℕ) (found : Vds) :
    Asks maxBootFileBytes (walkVds src mvdsLoc count i found)
      (walkVds src mvdsLoc count i found) := by
  induction count generalizing i found with
  | zero => exact .pure found
  | succ count ih =>
    refine .bind (.of _) fun lba _ => ?_
    refine .bind (asks_readBlock src lba (by decide)) fun b _ => .bind (.of _) fun tag _ => ?_
    refine .ite (fun _ => .bind (.of _) fun start _ => ih _ _) fun _ => ?_
    refine .ite (fun _ => .bind (.of _) fun lbs _ => .bind (.of _) fun fsdLb _ => ih _ _) fun _ => ?_
    exact .ite (fun _ => .pure found) fun _ => ih _ _

theorem asks_openVolume (src : Source) :
    Asks maxBootFileBytes (openVolume src) (openVolume src) := by
  refine .bind (asks_readBlock src avdpSector (by decide)) fun avdp _ => ?_
  refine .bind (.of _) fun tag _ => .ite (fun _ => .of _) fun _ => ?_
  refine .bind (.of _) fun mvdsLen _ => .bind (.of _) fun mvdsLoc _ => ?_
  refine .bind (asks_walkVds src mvdsLoc _ 0 _) fun found _ => ?_
  refine .bind (.of _) fun start _ => .bind (.of _) fun lvd _ => ?_
  exact .pure _

/-- The block of the File Set Descriptor is in the source, and so it is asked for. -/
def FileSetAsked (vol : Volume) (fsdLb : ℕ) : Prop :=
  vol.partitionStart + fsdLb < 2 ^ 32 ∧
    (vol.partitionStart + fsdLb) * vol.blockSize + vol.blockSize ≤ vol.src.len

theorem asks_rootFe {vol : Volume} {fsdLb : ℕ}
    (hsize : FileSetAsked vol fsdLb → vol.blockSize ≤ limit) :
    Asks limit (rootFe vol fsdLb) (rootFe vol fsdLb) := by
  refine .bind (.of _) fun fsdLba hfsdLba => ?_
  obtain ⟨hlba, rfl⟩ := fits_eq_ok.mp hfsdLba
  refine .bind (asks_readBlock_of_le fun hin => hsize ⟨hlba, hin⟩) fun fsd _ => ?_
  refine .bind (.of _) fun tag _ => .ite (fun _ => .of _) fun _ => ?_
  exact .bind (.of _) fun rootIcbLb _ => .of _

theorem readBlock_le {src : Source} {blockSize lba : ℕ} {b : List UInt8}
    (h : readBlock src blockSize lba = .ok b) : lba * blockSize + blockSize ≤ src.len := by
  obtain ⟨off, hoff, h⟩ := bind_eq_ok.mp h
  obtain ⟨stop, hstop, h⟩ := bind_eq_ok.mp h
  obtain ⟨-, rfl⟩ := fits_eq_ok.mp hoff
  obtain ⟨-, rfl⟩ := fits_eq_ok.mp hstop
  exact Nat.le_of_not_lt (ite_error_eq_ok.mp h).1

/-- What opens has asked for the block of its File Set Descriptor. -/
theorem fileSetAsked_of_rootFe {vol : Volume} {fsdLb lba : ℕ} (h : rootFe vol fsdLb = .ok lba) :
    FileSetAsked vol fsdLb := by
  obtain ⟨fsdLba, hfsdLba, h⟩ := bind_eq_ok.mp h
  obtain ⟨hlba, rfl⟩ := fits_eq_ok.mp hfsdLba
  obtain ⟨fsd, hfsd, -⟩ := bind_eq_ok.mp h
  exact ⟨hlba, readBlock_le hfsd⟩

/-- A block size over `limit` is not used: the first block of that size would end behind
the source. -/
def BlocksFit (limit : ℕ) (src : Source) : Prop :=
  ∀ vol fsdLb, openVolume src = .ok (vol, fsdLb) → FileSetAsked vol fsdLb → vol.blockSize ≤ limit

theorem asks_mount {src : Source} (hlimit : maxBootFileBytes ≤ limit) (hfit : BlocksFit limit src) :
    Asks limit (mount src) (mount src) := by
  refine .bind ((asks_openVolume src).mono (Request.Within.mono hlimit)) ?_
  rintro ⟨vol, fsdLb⟩ hopen
  refine .bind (asks_rootFe (hfit vol fsdLb hopen)) fun lba hlba => ?_
  have hsize := hfit vol fsdLb hopen (fileSetAsked_of_rootFe hlba)
  exact .bind (asks_readFe lba hsize) fun root _ => .pure _

/-- The state of a volume is looked at without a request. -/
theorem asks_inode {P : Request → Prop} (node : NodeId) (u : Udf) :
    TracksAt P (inode node) (inode node) u := .get_bind (.lift _ u)

/-- A directory is asked for as a whole, and the File Entries block by block. -/
theorem asks_readDir {u : Udf} (dir : NodeId) (hlimit : maxBootFileBytes ≤ limit)
    (hsize : u.vol.blockSize ≤ limit) : AsksAt limit (readDir (m := Asking) dir) (readDir dir) u := by
  refine .bind_reading (asks_inode dir u) rfl fun inode _ => ?_
  refine .ite (fun _ => .throw _ _) fun _ => .get_bind ?_
  refine .bind_reading (.keep (asks_readAll u.vol inode hlimit) u) rfl fun data _ => ?_
  refine .bind_reading (.lift _ u) rfl fun fids _ => ?_
  exact .zoom (asks_internAll (fun record _ => asks_readFe record.2 hsize) u.table)

theorem asks_readAt {u : Udf} (node : NodeId) (off : ℕ) (buf : List UInt8) :
    AsksAt (max maxBootFileBytes buf.length) (readAt (m := Asking) node off buf)
      (readAt node off buf) u := by
  refine .bind_reading (asks_inode node u) rfl fun inode _ => ?_
  refine .ite (fun _ => .throw _ _) fun _ => .ite (fun _ => .pure _ _) fun _ => .get_bind ?_
  refine .bind (.keep (asks_readData u.vol inode.data off ?_) u) fun data v _ => .pure _ v
  exact (Nat.min_le_left _ _).trans (Nat.le_max_right _ _)

/-- A call asks for at most `limit` bytes at a time, or fills the caller's buffer. -/
theorem asks_methods {u : Udf} (hlimit : maxBootFileBytes ≤ limit)
    (hsize : u.vol.blockSize ≤ limit) :
    recordedMethods.Asks (fun c r => r.length ≤ max limit c.bufLen) frontend u where
  root := rfl
  lookup dir name := by
    refine .mono (.bind (asks_readDir dir hlimit hsize) fun entries v _ => .pure _ v) ?_
    exact fun r hr => hr.trans (Nat.le_max_left _ _)
  readDir dir := (asks_readDir dir hlimit hsize).mono fun _ hr => hr.trans (Nat.le_max_left _ _)
  metadata node := .bind (asks_inode node u) fun _ v _ => .pure _ v
  readAt node off buf := (asks_readAt node off buf).mono fun _ hr =>
    hr.trans (max_le_max hlimit (le_refl _))
  readLink _ := .pure _ u

theorem le_of_within_readBlock {src : Source} {blockSize lba : ℕ}
    (h : (readBlock src blockSize lba : Asking _).Within (Request.Within limit))
    (hin : lba * blockSize + blockSize ≤ src.len) : blockSize ≤ limit := by
  have hlen := src.length_lt
  have hstop : lba * blockSize + blockSize < 2 ^ 64 := Nat.lt_of_le_of_lt hin hlen
  have hoff : lba * blockSize < 2 ^ 64 := Nat.lt_of_le_of_lt (Nat.le_add_right _ _) hstop
  have hafter := (Noted.within_bind.mp h).2 _ (fits_eq_ok.mpr ⟨hoff, rfl⟩)
  have hasked := (Noted.within_bind.mp hafter).2 _ (fits_eq_ok.mpr ⟨hstop, rfl⟩)
  rw [if_neg (Nat.not_lt.mpr hin)] at hasked
  exact hasked _ (List.mem_singleton_self _)

/-- What opening asked for says that the blocks fit. -/
theorem blocksFit_of_within {src : Source}
    (h : (mount src : Asking _).Within (Request.Within limit)) : BlocksFit limit src := by
  rintro vol fsdLb hopen ⟨hlba, hin⟩
  have hopened := (asks_openVolume src).result.trans hopen
  have hroot := (Noted.within_bind.mp h).2 _ hopened
  have hblock := (Noted.within_bind.mp (Noted.within_bind.mp hroot).1).2 _ (fits_eq_ok.mpr ⟨hlba, rfl⟩)
  exact le_of_within_readBlock (Noted.within_bind.mp hblock).1 hin

/-- A block size has 32 bits. -/
theorem blocksFit_large (src : Source) : BlocksFit (2 ^ 32) src :=
  fun _ _ hopen _ => (openVolume_spec hopen).2.le

def opening : Opening Udf Unit := ⟨probe, mount, fun _ => frontend⟩

def recorded : Recorded opening where
  probe := probe
  mount := mount
  methods _ := recordedMethods
  probe_eq src := (asks_probe src).result
  mount_eq src := (asks_mount (by decide) (blocksFit_large src)).result
  methods_eq _ u := by
    have hlimit := Nat.le_max_left maxBootFileBytes u.vol.blockSize
    exact (asks_methods hlimit (Nat.le_max_right _ _)).mono fun _ _ _ => trivial

/-- Requests are capped exactly when the block size is, or none of these blocks is in the
source. -/
theorem capped_iff (src : Source) : recorded.Capped src ↔ BlocksFit maxBootFileBytes src := by
  constructor
  · intro h
    exact blocksFit_of_within h.mount
  · intro h
    refine .intro (P := fun u => u.vol.blockSize ≤ maxBootFileBytes) (asks_probe src).within
      (asks_mount (le_refl _) h).within ?_ ?_ ?_
    · intro u hmount
      obtain ⟨⟨vol, fsdLb⟩, hopen, hmount⟩ := bind_eq_ok.mp hmount
      obtain ⟨lba, hlba, hmount⟩ := bind_eq_ok.mp hmount
      obtain ⟨root, -, hmount⟩ := bind_eq_ok.mp hmount
      obtain rfl := Except.ok.inj hmount
      exact h vol fsdLb hopen (fileSetAsked_of_rootFe hlba)
    · intro _
      refine frontend_keeps fun other fids _ => ?_
      exact .zoom (P := fun _ => True) (fun _ _ => trivial) (fun _ _ => trivial) fun _ _ _ hu => hu
    · intro _ u hu
      exact asks_methods (le_refl _) hu

end Lamfold.Udf
